import DevFuzz.Analysis.Predicates
import DevFuzz.Lib.Levels
import Mathlib.Data.List.Induction

/-! # Fields of USB transfers

`collectUSBBufferReads` of `stage2/src/apstage2.cpp` looks for comparisons and switches
on loaded values in the completion handlers and, through
`extractUSBBufferConstraints`, in the functions they call, three levels deep.  Each
offset becomes a field of the model.

Whichever way the offset of a load is found, it is that of the last GEP
(`bufferOffset_eq`); what the GEP starts from is not looked at, and the size of the
field is that of the compared value.  `fromTransferBuffer_iff` says what this means for
the model.
-/

namespace DevFuzz.Analysis

open DevFuzz.Lib DevFuzz.Lib.Levels

/-! ## Modules -/

/-- What the pass asks a value for.  Of a GEP it takes the first index and the result of
    `accumulateConstantOffset`. -/
inductive Node (ν φ : Type) where
  | constantInt (value : UInt64)
  | load (pointer : ν)
  | store (value : ν)
  | gep (pointer index : ν) (constantOffset : Option (BitVec 64))
  | cast (operand : ν)
  | icmp (predicate : CmpPredicate) (op0 op1 : ν)
  | switch (condition : ν) (cases : List UInt64)
  | call (callee : Option φ)
  | other

/-- A module with values `ν` and functions `φ`: the width of a type is `getScalarSizeInBits`, its size in
    memory `getTypeStoreSize`, and a declaration has no body.  `stripPointerCasts` goes through some of
    the casts, as far as it can, and never through a load. -/
structure Bitcode (ν φ : Type) where
  node : ν → Node ν φ
  users : ν → List ν
  bits : ν → Nat
  storeSize : ν → Nat
  body : φ → Option (List ν)
  stripPointerCasts : ν → ν
  strip_strip : ∀ v, stripPointerCasts (stripPointerCasts v) = stripPointerCasts v
  strip_load : ∀ v pointer, node v = .load pointer → stripPointerCasts v = v
  strip_cast : ∀ v operand, node v = .cast operand →
    stripPointerCasts v = v ∨ stripPointerCasts v = stripPointerCasts operand

namespace Bitcode

variable {ν φ : Type} (m : Bitcode ν φ)

def constant? (v : ν) : Option UInt64 :=
  match m.node v with
  | .constantInt value => some value
  | _ => none

/-- The source also calls itself for casts of the address, but drops what comes back. -/
def getConstantLoaded (addr : ν) : UInt64 :=
  ((m.users addr).findSome? fun u =>
    match m.node u with
    | .store value => m.constant? value
    | _ => none).getD 0xffffffffffffffff

/-- The operand of a cast, and any other value itself. -/
def uncast (v : ν) : ν :=
  match m.node v with
  | .cast operand => operand
  | _ => v

/-- The conversion to `int` drops the upper half. -/
def getGEPOffset (index : ν) : Option (BitVec 64) → Int
  | some offset => (offset.setWidth 32).toInt
  | none =>
    match m.node (m.uncast (m.stripPointerCasts index)) with
    | .load pointer => ((m.getConstantLoaded (m.stripPointerCasts pointer)).toBitVec.setWidth 32).toInt
    | _ => -1

/-- The offset of the GEP a load reads through. -/
def loadOffset (v : ν) : Option Int :=
  match m.node v with
  | .load pointer =>
    match m.node (m.stripPointerCasts pointer) with
    | .gep _ index constantOffset => some (m.getGEPOffset index constantOffset)
    | _ => none
  | _ => none

end Bitcode

/-! ## The pass -/

def HWInput.new (nBytes : Nat) (pos : 0 < nBytes) : HWInput where
  nBytes := nBytes
  nBytes_pos := pos
  ranges := []
  valueSet := .empty
  bitsSet := .empty
  rangeSpecialVals := .empty

structure USBTables (ν : Type) where
  usbBufferReads : AList fun _ : ν => Int
  usbModel : AList fun _ : Int => HWInput

def USBTables.empty {ν : Type} : USBTables ν := ⟨∅, ∅⟩

/-- `bits / 8`, and one byte for less than eight bits. -/
def nbytes (bits : Nat) : Nat := if bits / 8 = 0 then 1 else bits / 8

theorem nbytes_pos (bits : Nat) : 0 < nbytes bits := by
  unfold nbytes
  split_ifs with small
  · exact Nat.one_pos
  · exact Nat.pos_of_ne_zero small

/-- The entry is created if there is none, and then changed. -/
def update (usbModel : AList fun _ : Int => HWInput) (offset : Int) (bits : Nat) (record : HWInput → HWInput) :
    AList fun _ : Int => HWInput :=
  usbModel.insert offset (record ((usbModel.lookup offset).getD (.new (nbytes bits) (nbytes_pos bits))))

/-- What a comparison with `value` adds to the entry. -/
def recordICmp (predicate : CmpPredicate) (value : UInt64) (input : HWInput) : HWInput :=
  match predicate with
  | .eq | .ne => input.insertValue value
  | .ult | .slt | .ule | .sle => input.insertRanges 0 value.toInt64
  | .ugt | .sgt | .uge | .sge => input.insertRanges value.toInt64 0xff

def recordSwitch (cases : List UInt64) (input : HWInput) : HWInput := cases.foldl HWInput.insertValue input

namespace Bitcode

variable {ν φ : Type} [DecidableEq ν] (m : Bitcode ν φ)

/-- `usbBufferReads[v]`, or the offset of the load, or -1. -/
def bufferOffset (tables : USBTables ν) (v : ν) : Int :=
  match tables.usbBufferReads.lookup v with
  | some offset => offset
  | none => (m.loadOffset v).getD (-1)

/-- What follows once the constant is known: `bits` is the width of the compared value. -/
def atTest (tables : USBTables ν) (varOp : ν) (bits : Nat) (record : HWInput → HWInput) : USBTables ν :=
  let offset := m.bufferOffset tables (m.uncast (m.stripPointerCasts varOp))
  if 0 ≤ offset then { tables with usbModel := update tables.usbModel offset bits record } else tables

def visit (tables : USBTables ν) (v : ν) : USBTables ν :=
  match m.node v with
  | .load _ =>
    match m.loadOffset v with
    | some offset => if 0 ≤ offset then { tables with usbBufferReads := tables.usbBufferReads.insert v offset } else tables
    | none => tables
  | .icmp predicate op0 op1 =>
    match m.constant? op0, m.constant? op1 with
    | some value, _ => m.atTest tables op1 (m.bits op0) (recordICmp predicate value)
    | none, some value => m.atTest tables op0 (m.bits op1) (recordICmp predicate value)
    | none, none => tables
  | .switch condition cases => m.atTest tables condition (m.bits condition) (recordSwitch cases)
  | _ => tables

/-- The instructions of a function, block by block. -/
def instructions (f : φ) : List ν := (m.body f).getD []

def collectUSBBufferReads (tables : USBTables ν) (handler : φ) : USBTables ν :=
  (m.instructions handler).foldl m.visit tables

/-- The functions called that have a body. -/
def callees (f : φ) : List φ :=
  (m.instructions f).filterMap fun v =>
    match m.node v with
    | .call (some callee) => if (m.body callee).isSome then some callee else none
    | _ => none

variable [DecidableEq φ]

/-- The set `analyzed` and the tables at the end. -/
def analyze (handlers : List φ) : List φ × USBTables ν :=
  if handlers.isEmpty then ([], .empty) else
    levels m.callees m.collectUSBBufferReads 3 handlers [] (handlers.foldl m.collectUSBBufferReads .empty)

def extractUSBBufferConstraints (handlers : List φ) : USBTables ν := (m.analyze handlers).2

/-! ## The functions that are looked at -/

/-- The function is a handler, or at most three calls away from one. -/
def Within (handlers : List φ) (f : φ) : Prop := ∃ handler ∈ handlers, ∃ depth ≤ 3, Hops m.callees depth handler f

/-- All the instructions that are visited, in order. -/
def visited (handlers : List φ) : List ν := (handlers ++ (m.analyze handlers).1).flatMap m.instructions

def run (order : List ν) : USBTables ν := order.foldl m.visit .empty

omit [DecidableEq φ] in
theorem foldl_collect (fs : List φ) (tables : USBTables ν) :
    fs.foldl m.collectUSBBufferReads tables = (fs.flatMap m.instructions).foldl m.visit tables := by
  rw [List.foldl_flatMap]
  rfl

theorem analyze_spec (handlers : List φ) :
    m.extractUSBBufferConstraints handlers = m.run (m.visited handlers) ∧
      ∀ f, f ∈ handlers ++ (m.analyze handlers).1 ↔ m.Within handlers f := by
  have none : ClosedBut m.callees handlers [] := nofun
  obtain ⟨new, result, reached⟩ :=
    levels_spec 3 (handlers.foldl m.collectUSBBufferReads .empty) none
  unfold extractUSBBufferConstraints visited analyze run
  split_ifs with empty
  · rw [List.isEmpty_iff.mp empty]
    exact ⟨rfl, fun f => ⟨nofun, fun ⟨_, member, _⟩ => nomatch member⟩⟩
  · rw [result]
    refine ⟨?_, fun f => ?_⟩
    · rw [← foldl_collect, List.foldl_append, List.nil_append]
    · rw [List.mem_append, reached f]
      constructor
      · rintro (handler | old | ⟨handler, member, k, below, hops⟩)
        · exact ⟨f, handler, 0, Nat.zero_le _, rfl⟩
        · exact nomatch old
        · exact ⟨handler, member, k + 1, below, hops⟩
      · rintro ⟨handler, member, depth, bound, hops⟩
        cases depth with
        | zero => exact .inl (hops ▸ member)
        | succ k => exact .inr (.inr ⟨handler, member, k, bound, hops⟩)

/-! ## The tests that make the entries -/

/-- A value that is compared with constants: its type has the width `bits`. -/
structure Compared (ν : Type) where
  varOp : ν
  bits : Nat
  record : HWInput → HWInput
  record_nBytes : ∀ input, (record input).nBytes = input.nBytes

/-- A compared value that was loaded at an offset. -/
structure Test (ν : Type) extends Compared ν where
  load : ν
  offset : Int

end Bitcode

theorem recordICmp_nBytes (predicate : CmpPredicate) (value : UInt64) (input : HWInput) :
    (recordICmp predicate value input).nBytes = input.nBytes := by
  cases predicate <;> rfl

theorem recordSwitch_nBytes (cases : List UInt64) (input : HWInput) :
    (recordSwitch cases input).nBytes = input.nBytes := by
  unfold recordSwitch
  induction cases generalizing input with
  | nil => rfl
  | cons value cases ih => exact ih _

namespace Bitcode

variable {ν φ : Type} (m : Bitcode ν φ)

def compared? (v : ν) : Option (Compared ν) :=
  match m.node v with
  | .icmp predicate op0 op1 =>
    match m.constant? op0, m.constant? op1 with
    | some value, _ => some ⟨op1, m.bits op0, recordICmp predicate value, recordICmp_nBytes predicate value⟩
    | none, some value => some ⟨op0, m.bits op1, recordICmp predicate value, recordICmp_nBytes predicate value⟩
    | none, none => none
  | .switch condition cases => some ⟨condition, m.bits condition, recordSwitch cases, recordSwitch_nBytes cases⟩
  | _ => none

def test? (v : ν) : Option (Test ν) := do
  let compared ← m.compared? v
  let load := m.uncast (m.stripPointerCasts compared.varOp)
  let offset ← m.loadOffset load
  if 0 ≤ offset then some ⟨compared, load, offset⟩ else none

/-- Test by test, the entry is created or changed. -/
def enter (usbModel : AList fun _ : Int => HWInput) : Option (Test ν) → AList fun _ : Int => HWInput
  | some test => update usbModel test.offset test.bits test.record
  | none => usbModel

variable [DecidableEq ν]

/-- The recorded offsets are those the loads have anyway. -/
def Agrees (tables : USBTables ν) : Prop :=
  ∀ v offset, tables.usbBufferReads.lookup v = some offset → m.loadOffset v = some offset

variable {m}

theorem bufferOffset_eq {tables : USBTables ν} (agrees : m.Agrees tables) (v : ν) :
    m.bufferOffset tables v = (m.loadOffset v).getD (-1) := by
  unfold bufferOffset
  cases recorded : tables.usbBufferReads.lookup v with
  | none => rfl
  | some offset => rw [agrees v offset recorded, Option.getD_some]

theorem visit_compared {tables : USBTables ν} {v : ν} {compared : Compared ν} (found : m.compared? v = some compared) :
    m.visit tables v = m.atTest tables compared.varOp compared.bits compared.record := by
  unfold compared? at found
  unfold visit
  cases node : m.node v with
  | icmp predicate op0 op1 =>
    simp only [node] at found ⊢
    cases left : m.constant? op0 with
    | some value =>
      simp only [left, Option.some.injEq] at found
      rw [← found]
    | none =>
      cases right : m.constant? op1 with
      | some value =>
        simp only [left, right, Option.some.injEq] at found
        rw [← found]
      | none => simp [left, right] at found
  | switch condition cases =>
    simp only [node, Option.some.injEq] at found
    rw [← found]
  | constantInt | load | store | gep | cast | call | other => simp [node] at found

theorem visit_uncompared {tables : USBTables ν} {v : ν} (agrees : m.Agrees tables) (found : m.compared? v = none) :
    m.Agrees (m.visit tables v) ∧ (m.visit tables v).usbModel = tables.usbModel := by
  unfold compared? at found
  unfold visit
  cases node : m.node v with
  | load pointer =>
    cases offset : m.loadOffset v with
    | none => exact ⟨agrees, rfl⟩
    | some offset' =>
      simp only
      split_ifs
      · refine ⟨fun u offset'' recorded => ?_, rfl⟩
        by_cases here : u = v
        · rw [here, AList.lookup_insert] at recorded
          rw [here, offset, recorded]
        · rw [AList.lookup_insert_ne here] at recorded
          exact agrees u offset'' recorded
      · exact ⟨agrees, rfl⟩
  | icmp predicate op0 op1 =>
    simp only [node] at found ⊢
    cases left : m.constant? op0 with
    | some value => simp [left] at found
    | none =>
      cases right : m.constant? op1 with
      | some value => simp [left, right] at found
      | none => exact ⟨agrees, rfl⟩
  | switch condition cases => simp [node] at found
  | constantInt | store | gep | cast | call | other => exact ⟨agrees, rfl⟩

theorem visit_spec {tables : USBTables ν} (agrees : m.Agrees tables) (v : ν) :
    m.Agrees (m.visit tables v) ∧ (m.visit tables v).usbModel = enter tables.usbModel (m.test? v) := by
  unfold test?
  cases found : m.compared? v with
  | none => exact visit_uncompared agrees found
  | some compared =>
    rw [visit_compared found, atTest]
    simp only [bufferOffset_eq agrees, Option.bind_eq_bind, Option.bind_some]
    cases m.loadOffset (m.uncast (m.stripPointerCasts compared.varOp)) with
    | none => exact ⟨agrees, rfl⟩
    | some offset =>
      simp only [Option.getD_some, Option.bind_some]
      split_ifs
      · exact ⟨agrees, rfl⟩
      · exact ⟨agrees, rfl⟩

/-- The model depends on the tests alone. -/
theorem run_spec (order : List ν) :
    m.Agrees (m.run order) ∧ (m.run order).usbModel = (order.map m.test?).foldl enter ∅ := by
  induction order using List.reverseRecOn with
  | nil => exact ⟨nofun, rfl⟩
  | append_singleton order v ih =>
    obtain ⟨agrees, model⟩ := visit_spec ih.1 v
    unfold run at ih agrees model ⊢
    rw [List.foldl_append, List.map_append, List.foldl_append, ← ih.2]
    exact ⟨agrees, model⟩

theorem run_append_singleton (order : List ν) (v : ν) :
    (m.run (order ++ [v])).usbModel = enter (m.run order).usbModel (m.test? v) := by
  rw [(run_spec _).2, (run_spec _).2, List.map_append, List.foldl_append]
  rfl

variable (m)

/-- The instruction makes the entry: there is none before it is visited. -/
def Puts (order : List ν) (v : ν) (offset : Int) (nBytes : Nat) : Prop :=
  ∃ before after, order = before ++ v :: after ∧ (m.run before).usbModel.lookup offset = none ∧
    ((m.run (before ++ [v])).usbModel.lookup offset).map HWInput.nBytes = some nBytes

/-- No instruction tests a value loaded at the offset. -/
def Untested (order : List ν) (offset : Int) : Prop := ∀ v ∈ order, ∀ test, m.test? v = some test → test.offset ≠ offset

/-- The instruction is the first one to test a value loaded at that offset. -/
def FirstTest (order : List ν) (v : ν) (test : Test ν) : Prop :=
  ∃ before after, order = before ++ v :: after ∧ m.test? v = some test ∧ m.Untested before test.offset

variable {m}

omit [DecidableEq ν] in
theorem lookup_enter (usbModel : AList fun _ : Int => HWInput) (test : Test ν) (offset : Int) :
    ((enter usbModel (some test)).lookup offset).map HWInput.nBytes =
      if test.offset = offset then some (((usbModel.lookup offset).map HWInput.nBytes).getD (nbytes test.bits))
      else (usbModel.lookup offset).map HWInput.nBytes := by
  rw [enter, update]
  split_ifs with same
  · rw [← same, AList.lookup_insert, Option.map_some, test.record_nBytes]
    cases usbModel.lookup test.offset with
    | none => rfl
    | some input => rfl
  · rw [AList.lookup_insert_ne (Ne.symm same)]

omit [DecidableEq ν] in
theorem untested_append_singleton {order : List ν} {v : ν} {offset : Int} :
    m.Untested (order ++ [v]) offset ↔ m.Untested order offset ∧ ∀ test, m.test? v = some test → test.offset ≠ offset := by
  simp [Untested, or_imp, forall_and]

theorem lookup_of_untested {order : List ν} {offset : Int} (untested : m.Untested order offset) :
    ((m.run order).usbModel.lookup offset).map HWInput.nBytes = none := by
  induction order using List.reverseRecOn with
  | nil => rfl
  | append_singleton order v ih =>
    obtain ⟨before, here⟩ := untested_append_singleton.mp untested
    rw [run_append_singleton]
    cases found : m.test? v with
    | none => exact ih before
    | some test => rw [lookup_enter, if_neg (here test found), ih before]

/-- The first test decides the size. -/
theorem lookup_of_firstTest {order : List ν} {v : ν} {test : Test ν} (first : m.FirstTest order v test) :
    ((m.run order).usbModel.lookup test.offset).map HWInput.nBytes = some (nbytes test.bits) := by
  obtain ⟨before, after, rfl, found, untested⟩ := first
  induction after using List.reverseRecOn with
  | nil => rw [run_append_singleton, found, lookup_enter, if_pos rfl, lookup_of_untested untested, Option.getD_none]
  | append_singleton after u ih =>
    rw [← List.cons_append, ← List.append_assoc, run_append_singleton]
    cases m.test? u with
    | none => exact ih
    | some later =>
      rw [lookup_enter, ih]
      split_ifs
      · rfl
      · rfl

omit [DecidableEq ν] in
theorem exists_firstTest {order : List ν} {offset : Int} (tested : ¬ m.Untested order offset) :
    ∃ v test, m.FirstTest order v test ∧ test.offset = offset := by
  induction order using List.reverseRecOn with
  | nil => exact absurd nofun tested
  | append_singleton order v ih =>
    by_cases untested : m.Untested order offset
    · have here : ∃ test, m.test? v = some test ∧ test.offset = offset := by
        by_contra none
        exact tested (untested_append_singleton.mpr ⟨untested, fun test found same => none ⟨test, found, same⟩⟩)
      obtain ⟨test, found, rfl⟩ := here
      exact ⟨v, test, ⟨order, [], rfl, found, untested⟩, rfl⟩
    · obtain ⟨u, test, ⟨before, after, split, found⟩, same⟩ := ih untested
      exact ⟨u, test, ⟨before, after ++ [v], by rw [split]; simp, found⟩, same⟩

/-- An entry is made by the first test of its offset. -/
theorem puts_iff {order : List ν} {v : ν} {offset : Int} {nBytes : Nat} :
    m.Puts order v offset nBytes ↔
      ∃ test, m.FirstTest order v test ∧ test.offset = offset ∧ nbytes test.bits = nBytes := by
  constructor
  · rintro ⟨before, after, split, absent, entry⟩
    have untested : m.Untested before offset := by
      by_contra tested
      obtain ⟨u, test, first, rfl⟩ := exists_firstTest tested
      have present := lookup_of_firstTest first
      simp [absent] at present
    rw [run_append_singleton] at entry
    cases found : m.test? v with
    | none =>
      rw [found] at entry
      simp [enter, absent] at entry
    | some test =>
      rw [found, lookup_enter, absent] at entry
      split_ifs at entry with same
      · exact ⟨test, ⟨before, after, split, found, same ▸ untested⟩, same, Option.some.inj entry⟩
      · simp at entry
  · rintro ⟨test, ⟨before, after, split, found, untested⟩, rfl, rfl⟩
    refine ⟨before, after, split, ?_, lookup_of_firstTest ⟨before, [], rfl, found, untested⟩⟩
    exact Option.map_eq_none_iff.mp (lookup_of_untested untested)

omit [DecidableEq ν] in
/-- Only one instruction is the first. -/
theorem FirstTest.unique {order : List ν} {v v' : ν} {test test' : Test ν} (first : m.FirstTest order v test)
    (first' : m.FirstTest order v' test') (same : test.offset = test'.offset) : v = v' ∧ test = test' := by
  obtain ⟨before, after, rfl, found, untested⟩ := first
  obtain ⟨before', after', split, found', untested'⟩ := first'
  have position : v = v' := by
    obtain ⟨middle, left, right⟩ | ⟨middle, left, right⟩ := List.append_eq_append_iff.mp split
    · cases middle with
      | nil => exact (List.cons.inj right).1
      | cons u middle =>
        obtain ⟨rfl, -⟩ := List.cons.inj right
        exact absurd same (untested' v (by simp [left]) test found)
    · cases middle with
      | nil => exact (List.cons.inj right).1.symm
      | cons u middle =>
        obtain ⟨rfl, -⟩ := List.cons.inj right
        exact absurd same.symm (untested v' (by simp [left]) test' found')
  subst position
  exact ⟨rfl, Option.some.inj (found.symm.trans found')⟩

/-! ## Loads from the transfer buffer -/

/-- The value is the loaded one, behind casts. -/
inductive Carries (m : Bitcode ν φ) (load : ν) : ν → Prop where
  | here : Carries m load load
  | strip {v : ν} (stripped : Carries m load (m.stripPointerCasts v)) : Carries m load v
  | cast {v operand : ν} (node : m.node v = .cast operand) (carries : Carries m load operand) : Carries m load v

/-- The instruction compares the loaded value with constants. -/
def Compares (m : Bitcode ν φ) (v load : ν) : Prop :=
  ∃ compared, m.compared? v = some compared ∧ m.Carries load compared.varOp

omit [DecidableEq ν] in
theorem uncast_load {v pointer : ν} (node : m.node v = .load pointer) : m.uncast v = v := by
  rw [uncast, node]

omit [DecidableEq ν] in
theorem uncast_cast {v operand : ν} (node : m.node v = .cast operand) : m.uncast v = operand := by
  rw [uncast, node]

omit [DecidableEq ν] in
theorem carries_uncast (v : ν) : m.Carries (m.uncast (m.stripPointerCasts v)) v := by
  refine .strip ?_
  cases node : m.node (m.stripPointerCasts v) with
  | cast operand => exact .cast node (uncast_cast node ▸ .here)
  | constantInt | load | store | gep | icmp | switch | call | other =>
    rw [uncast, node]
    exact .here

omit [DecidableEq ν] in
/-- The pass finds the one load that the value can come from. -/
theorem Carries.load_eq {load v pointer pointer' : ν} (carries : m.Carries load v) (isLoad : m.node load = .load pointer)
    (found : m.node (m.uncast (m.stripPointerCasts v)) = .load pointer') :
    load = m.uncast (m.stripPointerCasts v) := by
  induction carries with
  | here => rw [m.strip_load _ _ isLoad, uncast_load isLoad]
  | strip _ ih =>
    rw [m.strip_strip] at ih
    exact ih found
  | cast node _ ih =>
    cases m.strip_cast _ _ node with
    | inr through =>
      rw [through] at found ⊢
      exact ih found
    | inl stays =>
      -- the cast is not one of pointers: its operand is the load
      rw [stays, uncast_cast node] at found ⊢
      have fixed := uncast_load found
      rw [m.strip_load _ _ found, fixed] at ih
      exact ih found

omit [DecidableEq ν] in
theorem loadOffset_isLoad {v : ν} {offset : Int} (found : m.loadOffset v = some offset) :
    ∃ pointer, m.node v = .load pointer := by
  unfold loadOffset at found
  cases node : m.node v with
  | load pointer => exact ⟨pointer, rfl⟩
  | constantInt | store | gep | cast | icmp | switch | call | other => simp [node] at found

omit [DecidableEq ν] in
theorem test_inv {v : ν} {test : Test ν} (found : m.test? v = some test) :
    m.compared? v = some test.toCompared ∧ test.load = m.uncast (m.stripPointerCasts test.varOp) ∧
      ∃ pointer, m.node test.load = .load pointer := by
  unfold test? at found
  obtain ⟨compared, first, found⟩ := Option.bind_eq_some_iff.mp found
  obtain ⟨offset, second, found⟩ := Option.bind_eq_some_iff.mp found
  split_ifs at found
  obtain rfl := Option.some.inj found
  exact ⟨first, rfl, loadOffset_isLoad second⟩

/-- Which byte of the transfer buffer of the URB a value points to, if it points there: the casts keep it,
    and a GEP moves it by its offset. -/
structure TransferBuffer (m : Bitcode ν φ) where
  byte : ν → Option Int
  byte_strip : ∀ v, byte (m.stripPointerCasts v) = byte v
  byte_gep : ∀ v pointer index offset, m.node v = .gep pointer index (some offset) →
    byte v = (byte pointer).map (· + offset.toInt)

/-- The load reads the buffer at the offset. -/
def TransferBuffer.Reads (buffer : TransferBuffer m) (load : ν) (offset : Int) : Prop :=
  ∃ pointer, m.node load = .load pointer ∧ buffer.byte pointer = some offset

/-- Every entry stems from the comparison of a value that was loaded from the transfer buffer, and has the
    offset and the size of the load. -/
def FromTransferBuffer (m : Bitcode ν φ) [DecidableEq φ] (buffer : TransferBuffer m) (handlers : List φ) : Prop :=
  ∀ offset input, (m.extractUSBBufferConstraints handlers).usbModel.lookup offset = some input →
    ∃ f v load, m.Within handlers f ∧ v ∈ m.instructions f ∧ m.Puts (m.visited handlers) v offset input.nBytes ∧
      m.Compares v load ∧ buffer.Reads load offset ∧ input.nBytes = m.storeSize load

theorem fromTransferBuffer_iff [DecidableEq φ] (m : Bitcode ν φ) (buffer : TransferBuffer m) (handlers : List φ) :
    m.FromTransferBuffer buffer handlers ↔ ∀ v test, m.FirstTest (m.visited handlers) v test →
      buffer.Reads test.load test.offset ∧ nbytes test.bits = m.storeSize test.load := by
  obtain ⟨result, within⟩ := m.analyze_spec handlers
  unfold FromTransferBuffer
  rw [result]
  constructor
  · intro stems v test first
    obtain ⟨input, entry, size⟩ := Option.map_eq_some_iff.mp (lookup_of_firstTest first)
    obtain ⟨f, v', load, -, -, puts, ⟨compared, found, carries⟩, ⟨pointer, isLoad, byte⟩, width⟩ := stems _ _ entry
    obtain ⟨test', first', same, -⟩ := puts_iff.mp puts
    obtain ⟨rfl, rfl⟩ := first.unique first' same.symm
    obtain ⟨-, -, -, tested, -⟩ := first
    obtain ⟨found', load', isLoad'⟩ := test_inv tested
    obtain rfl := Option.some.inj (found.symm.trans found')
    obtain ⟨pointer', isLoad'⟩ := isLoad'
    have one : load = test.load := by
      rw [load'] at isLoad' ⊢
      exact carries.load_eq isLoad isLoad'
    rw [← one, ← width]
    exact ⟨⟨pointer, isLoad, byte⟩, size.symm⟩
  · intro good offset input entry
    have tested : ¬ m.Untested (m.visited handlers) offset := by
      intro untested
      have absent := lookup_of_untested untested
      simp [entry] at absent
    obtain ⟨v, test, first, rfl⟩ := exists_firstTest tested
    have size := lookup_of_firstTest first
    rw [entry, Option.map_some, Option.some.injEq] at size
    obtain ⟨reads, width⟩ := good v test first
    have member : v ∈ m.visited handlers := by
      obtain ⟨before, after, split, -⟩ := first
      rw [split]
      simp
    obtain ⟨f, reached, inside⟩ := List.mem_flatMap.mp member
    have puts : m.Puts (m.visited handlers) v test.offset input.nBytes := puts_iff.mpr ⟨test, first, rfl, size.symm⟩
    obtain ⟨-, -, -, found, -⟩ := first
    obtain ⟨compared, load, -⟩ := test_inv found
    have carries : m.Carries test.load test.varOp := load ▸ carries_uncast test.varOp
    exact ⟨f, v, test.load, (within f).mp reached, inside, puts, ⟨_, compared, carries⟩, reads, size.trans width⟩

end Bitcode

/-! ## A handler with both faults -/

/-- The values of two handlers: `urb->status == 0` and `buf[2] == 0xe0`. -/
inductive IrqValue where
  | urb | statusField | status | ok | succeeded
  | buf | replyField | reply | replyWide | code | replied
  deriving DecidableEq

inductive IrqHandler where
  | checkStatus
  | checkReply
  deriving DecidableEq

/-- The status of an URB is at its offset 88. -/
def irqCode : Bitcode IrqValue IrqHandler where
  node
    | .statusField => .gep .urb .ok (some 88)
    | .status => .load .statusField
    | .ok => .constantInt 0
    | .succeeded => .icmp .eq .status .ok
    | .replyField => .gep .buf .code (some 2)
    | .reply => .load .replyField
    | .replyWide => .cast .reply
    | .code => .constantInt 0xe0
    | .replied => .icmp .eq .replyWide .code
    | .urb | .buf => .other
  users := fun _ => []
  bits
    | .urb | .statusField | .buf | .replyField => 0
    | .succeeded | .replied => 1
    | .reply => 8
    | .status | .ok | .replyWide | .code => 32
  storeSize
    | .urb | .statusField | .buf | .replyField => 8
    | .succeeded | .replied | .reply => 1
    | .status | .ok | .replyWide | .code => 4
  body
    | .checkStatus => some [.statusField, .status, .succeeded]
    | .checkReply => some [.replyField, .reply, .replyWide, .replied]
  stripPointerCasts := id
  strip_strip := fun _ => rfl
  strip_load := fun _ _ _ => rfl
  strip_cast := fun _ _ _ => .inl rfl

def irqBuffer : irqCode.TransferBuffer where
  byte
    | .buf => some 0
    | .replyField => some 2
    | _ => none
  byte_strip := fun _ => rfl
  byte_gep := by
    intro v pointer index offset node
    cases v <;> cases node <;> rfl

/-- The status is taken for a field of the transfer, and the byte for a field of four bytes. -/
theorem not_fromTransferBuffer_irq :
    ¬ irqCode.FromTransferBuffer irqBuffer [.checkStatus] ∧ ¬ irqCode.FromTransferBuffer irqBuffer [.checkReply] := by
  constructor
  · intro stems
    obtain ⟨-, -, load, -, -, -, -, ⟨pointer, -, byte⟩, -⟩ := stems 88 _ rfl
    cases pointer <;> cases byte
  · intro stems
    obtain ⟨-, -, load, -, -, -, -, ⟨pointer, isLoad, byte⟩, width⟩ := stems 2 _ rfl
    have size : (4 : Nat) = irqCode.storeSize load := width
    cases load <;> cases isLoad
    · cases byte
    · cases size

end DevFuzz.Analysis
