import DevFuzz.Lib.Run
import DevFuzz.PeX.ConfigSpace
import DevFuzz.Probe.Records
import Mathlib.Data.Finset.Card
import Mathlib.Data.Finset.SDiff

/-! # Exploring the probe function

S2E runs the guest from a snapshot and forks an execution state at each branch on a value
that the plugin `PeX` has made symbolic.  The driver tells the plugin when its probe
function is through: with 1 the state has won, its reads are solved and printed and all
other states are terminated; with 2 the state is terminated.  From then on MMIO reads
are fed with data, instructions are counted for interrupts, and AFL is told the blocks.

The states share the executor, the counters and the plugin.  `explored_of_run` says that
they do not disturb each other: each is where its own path leads alone, and what is
printed are the reads of the path that has won.  The one exception is the counter that
delays symbolic ports: it counts the accesses of all states, so that with a delay it
depends on the others which of its first port reads a state makes symbolic.
-/

namespace DevFuzz.PeX.Exploration

open DevFuzz.Lib DevFuzz.Lib.Strings

/-! ## Execution states -/

inductive Kind where
  | mmio
  | pio
  deriving DecidableEq, Repr

/-- Sizes of `se_is_mmio_symbolic_b`, `_w`, `_l` and `_q`. -/
inductive AccessSize where
  | b
  | w
  | l
  | q
  deriving DecidableEq, Repr

def AccessSize.bytes : AccessSize → Nat
  | b => 1
  | w => 2
  | l => 4
  | q => 8

/-- A read of a BAR, as the name of its symbolic value says it. -/
structure DeviceRead where
  kind : Kind
  bar : Fin 6
  baraddr : BitVec 64
  size : Nat
  pc : BitVec 64
  deriving DecidableEq

/-- An array that `createSymbolicValue` has made. -/
structure Symbolic where
  read : DeviceRead
  nextSymbVarId : Nat
  lastSymbolicId : Nat

def Symbolic.mmioRead (v : Symbolic) : Probe.MmioRead :=
  ⟨v.read.bar, v.read.baraddr.toNat, v.read.size, v.read.pc.toNat, v.nextSymbVarId, v.lastSymbolicId⟩

def Symbolic.name (v : Symbolic) : Text :=
  match v.read.kind with
  | .mmio => v.mmioRead.name
  | .pio => v.mmioRead.portName

theorem Symbolic.name_eq (v : Symbolic) : ∃ rest, v.name = ('v' :: decimal v.nextSymbVarId) ++ '_' :: rest := by
  unfold name
  cases v.read.kind with
  | mmio =>
    refine ⟨"pex_symdev_bar_".toList ++ decimal v.mmioRead.bar ++ "_mmio".toList ++ "___".toList ++ v.mmioRead.nameTail, ?_⟩
    rw [Probe.MmioRead.name_eq, Probe.MmioRead.nameHead]
    simp [mmioRead]
  | pio =>
    refine ⟨"pex_symdev_bar_".toList ++ decimal v.mmioRead.bar ++ "_pio___".toList ++ v.mmioRead.nameTail, ?_⟩
    rw [Probe.MmioRead.portName_eq]
    simp [mmioRead]

/-- The number of a value can be read off its name. -/
theorem Symbolic.number_of_name {v v' : Symbolic} (same : v.name = v'.name) : v.nextSymbVarId = v'.nextSymbVarId := by
  have front : ∀ v : Symbolic, v.name.takeWhile (· ≠ '_') = 'v' :: decimal v.nextSymbVarId := by
    intro v
    obtain ⟨rest, name⟩ := v.name_eq
    have clean : ∀ char ∈ 'v' :: decimal v.nextSymbVarId, decide (char ≠ '_') = true := by
      intro char member
      rcases List.mem_cons.mp member with rfl | member
      · decide
      · exact decide_eq_true fun underscore => decimal_no_underscore _ (underscore ▸ member)
    rw [name, List.takeWhile_append_of_pos clean]
    simp
  have fronts := congrArg (List.takeWhile (· ≠ '_')) same
  rw [front, front] at fronts
  have numbers := congrArg (pyInt 10) (List.cons.inj fronts).2
  simpa [pyInt_decimal] using numbers

/-- What the plugin uses of an `S2EExecutionState`. -/
structure Path where
  pci : State
  nextSymbVarId : Nat
  symbolics : List Symbolic
  /-- `metadata["device_probed"]`; an entry that is missing is 0 -/
  deviceProbed : Bool
  /-- `CPU_OFFSET(kvm_irq)` -/
  kvmIrq : Option Int

/-- What `initialize` has read from the configuration file. -/
structure Config extends Plugin where
  delayEnableSymbHW : Int
  withAFL : Bool
  irq : Int
  injectIrqPerXxxIns : UInt32

/-- Messages to the proxy of AFL. -/
inductive Message where
  | block (pc : BitVec 64)
  | terminate
  deriving DecidableEq

/-! ## The executor and the plugin -/

/-- A solution that `generateTestCase` has printed. -/
abbrev TestCase := List (Symbolic × List UInt8)

structure Engine where
  path : Nat → Path
  states : Finset Nat
  /-- terminated, and deleted with the next `updateStates` -/
  removedStates : Finset Nat
  /-- `g_s2e_state` -/
  current : Nat
  nextId : Nat
  /-- `S2EExecutionState::s_lastSymbolicId` -/
  lastSymbolicId : Nat
  /-- the static `count` of `isPortSymbolic` -/
  count : Int
  /-- the static `icount` of `onInstruction` -/
  icount : UInt64
  testCases : List TestCase
  messages : List Message

/-- What happens in the current state. -/
inductive Move where
  -- in concrete mode the machine asks before it goes on in symbolic mode
  | checkPort (port : BitVec 16)
  | portWrite (port : Expr 16) (w : Width) (value : Expr w.bits)
  | portRead (port : BitVec 16) (w : Width) (pc : BitVec 64)
  | mmioRead (address : BitVec 64) (size : AccessSize) (pc : BitVec 64)
  -- a branch on a symbolic value; the executor calls `updateStates` after the instruction
  | fork
  | block (pc : BitVec 64)
  | instruction
  -- `solution` is what the solver finds for the values of the state, if it finds one
  | invoke (guestDataPtr : UInt64) (solution : Option (List (List UInt8)))
  | terminate

inductive Action where
  | move (m : Move)
  | update
  | switchTo (id : Nat)

namespace Engine

variable (p : Config) (e : Engine)

def now : Path := e.path e.current

def setNow (path : Path) : Engine := { e with path := Function.update e.path e.current path }

/-- The states that are not terminated. -/
def live : Finset Nat := e.states \ e.removedStates

def init (s : State) : Engine where
  path _ := ⟨pluginInit2 p.toPlugin s, 0, [], false, none⟩
  states := {0}
  removedStates := ∅
  current := 0
  nextId := 1
  lastSymbolicId := 0
  count := p.delayEnableSymbHW
  icount := 0
  testCases := []
  messages := []

def isPortSymbolic (port : BitVec 16) : Bool × Engine :=
  if e.count ≠ 0 then (false, { e with count := e.count - 1 })
  else
    ((0xcf8 ≤ port ∧ port ≤ 0xcff) ∨ (fallsIntoPIOBar p.toPlugin e.now.pci (port.setWidth 64)).isSome, e)

def createSymbolicValue (read : DeviceRead) : Engine :=
  { e.setNow { e.now with
      symbolics := e.now.symbolics ++ [⟨read, e.now.nextSymbVarId, e.lastSymbolicId⟩]
      nextSymbVarId := e.now.nextSymbVarId + 1 } with
    lastSymbolicId := e.lastSymbolicId + 1 }

/-- `createExpressionPort`: only a read from a BAR is made symbolic. -/
def createExpressionPort (address : BitVec 64) (w : Width) (pc : BitVec 64) : Engine :=
  match fallsIntoPIOBar p.toPlugin e.now.pci address with
  | some i => e.createSymbolicValue ⟨.pio, i, address - getBarLowAddr e.now.pci i, w.size, pc⟩
  | none => e

/-- `createExpressionMMIO`, behind `isMmioSymbolic`.  A probed device is fed with data. -/
def createExpressionMMIO (address : BitVec 64) (size : AccessSize) (pc : BitVec 64) : Engine :=
  match fallsIntoMMIOBar p.toPlugin e.now.pci address with
  | some i =>
    if e.now.deviceProbed then e
    else e.createSymbolicValue ⟨.mmio, i, address - getBarLowAddr e.now.pci i, size.bytes, pc⟩
  | none => e

/-- The message of `slotOnStateKill`, for each of the states. -/
def killed (ids : Finset Nat) : List Message :=
  if p.withAFL then List.replicate (ids.filter fun id => (e.path id).deviceProbed).card .terminate else []

def terminateStates (ids : Finset Nat) : Engine :=
  { e with removedStates := e.removedStates ∪ ids, messages := e.messages ++ e.killed p ids }

def updateStates : Engine := { e with states := e.states \ e.removedStates, removedStates := ∅ }

/-- A child has the memory, the registers and the metadata of its parent. -/
def fork : Engine :=
  { e with
    path := Function.update e.path e.nextId e.now
    states := insert e.nextId (e.states \ e.removedStates)
    removedStates := ∅
    nextId := e.nextId + 1 }

/-- `slotExecuteBlockStart` for a block of the kernel -/
def slotExecuteBlockStart (pc : BitVec 64) : Engine :=
  if p.withAFL && e.now.deviceProbed then { e with messages := e.messages ++ [.block pc] } else e

/-- `onInstruction`, which is connected unless `irq` is -1.  The remainder by 0 is a trap. -/
def onInstruction : Option Engine :=
  if p.irq = -1 ∨ ¬ e.now.deviceProbed then some e
  else if p.injectIrqPerXxxIns = 0 then none
  else
    let e := { e with icount := e.icount + 1 }
    some (if e.icount % p.injectIrqPerXxxIns.toUInt64 = 0 then e.setNow { e.now with kvmIrq := some p.irq } else e)

/-- `generateTestCase`.  The solver has an array of bytes for each value, of the size of the value. -/
def generateTestCase : Option (List (List UInt8)) → Option Engine
  | some values =>
    if values.map List.length = e.now.symbolics.map (·.read.size) then
      some { e with testCases := e.testCases ++ [e.now.symbolics.zip values] }
    else none
  | none => some e

def handleOpcodeInvocation (guestDataPtr : UInt64) (solution : Option (List (List UInt8))) : Option Engine :=
  if guestDataPtr = 1 then
    ((e.setNow { e.now with deviceProbed := true }).generateTestCase solution).map fun e =>
      e.terminateStates p (e.states.erase e.current)      -- `killAllOthers`
  else if guestDataPtr = 2 then some (e.terminateStates p {e.current})
  else some e

def move : Move → Option Engine
  | .checkPort port => some (e.isPortSymbolic p port).2
  | .portWrite port _ value =>
    let e := (e.isPortSymbolic p (port.concrete.setWidth 16)).2
    some (e.setNow { e.now with pci := slotOnPortAccess p.toPlugin e.now.pci port value true })
  | .portRead port w pc =>
    let (isSymb, e) := e.isPortSymbolic p port
    some (if isSymb then e.createExpressionPort p (port.setWidth 64) w pc else e)
  | .mmioRead address size pc => some (e.createExpressionMMIO p address size pc)
  | .fork => some e.fork
  | .block pc => some (e.slotExecuteBlockStart p pc)
  | .instruction => e.onInstruction p
  | .invoke guestDataPtr solution => e.handleOpcodeInvocation p guestDataPtr solution
  | .terminate => some (e.terminateStates p {e.current})

def step : Action → Option Engine
  -- a state that is terminated leaves the loop of the CPU
  | .move m => if e.current ∈ e.live then e.move p m else none
  | .update => some e.updateStates
  | .switchTo id => if id ∈ e.live then some { e.updateStates with current := id } else none

/-- The counter goes down, or stays at zero. -/
theorem isPortSymbolic_eq (port : BitVec 16) :
    ∃ count, (e.count = 0 → count = 0) ∧ (e.isPortSymbolic p port).2 = { e with count := count } := by
  unfold isPortSymbolic
  split_ifs with delayed
  · exact ⟨e.count - 1, fun zero => absurd zero delayed, rfl⟩
  · exact ⟨e.count, id, rfl⟩

/-- What a success does. -/
structure Succeeds (solution : Option (List (List UInt8))) (t : Engine) : Prop where
  path : t.path = Function.update e.path e.current { e.now with deviceProbed := true }
  states : t.states = e.states
  nextId : t.nextId = e.nextId
  count : t.count = e.count
  fits : ∀ values, solution = some values → values.length = e.now.symbolics.length
  testCases : t.testCases = e.testCases ++ (solution.map e.now.symbolics.zip).toList
  only : ∀ id ∈ t.live, id = e.current

variable {p e}

theorem succeeds {solution : Option (List (List UInt8))} {t : Engine}
    (taken : e.handleOpcodeInvocation p 1 solution = some t) : e.Succeeds solution t := by
  obtain ⟨printed, printing, rfl⟩ := Option.map_eq_some_iff.mp taken
  have fits : ∀ values, solution = some values → values.length = e.now.symbolics.length := by
    intro values found
    subst found
    have sizes := (Option.ite_none_right_eq_some.mp printing).1
    simpa [setNow, now] using congrArg List.length sizes
  have printed : printed = { e.setNow { e.now with deviceProbed := true } with
      testCases := e.testCases ++ (solution.map e.now.symbolics.zip).toList } := by
    cases solution with
    | none => simpa [generateTestCase, setNow] using printing.symm
    | some values =>
      simp only [generateTestCase, Option.ite_none_right_eq_some] at printing
      simpa [setNow, now] using printing.2.symm
  subst printed
  refine ⟨rfl, rfl, rfl, rfl, fits, rfl, fun id member => ?_⟩
  simp only [live, terminateStates, setNow, Finset.mem_sdiff, Finset.mem_union, Finset.mem_erase, not_or,
    not_and] at member
  by_contra other
  exact member.2.2 other member.1

end Engine

/-! ## A path alone -/

/-- What the device sees of a path. -/
inductive Event where
  | portWrite (port : Expr 16) (w : Width) (value : Expr w.bits)
  | portRead (port : BitVec 16) (w : Width) (pc : BitVec 64)
  | mmioRead (address : BitVec 64) (size : AccessSize) (pc : BitVec 64)
  | success

def Event.isRead : Event → Bool
  | portRead .. | mmioRead .. => true
  | portWrite .. | success => false

/-- The device of a single path, without an executor. -/
structure Alone where
  pci : State
  probed : Bool
  reads : List DeviceRead

namespace Alone

variable (p : Plugin)

/-- The read that is made symbolic. -/
def read? (a : Alone) : Event → Option DeviceRead
  | .portRead port w pc =>
    (fallsIntoPIOBar p a.pci (port.setWidth 64)).map fun i =>
      ⟨.pio, i, port.setWidth 64 - getBarLowAddr a.pci i, w.size, pc⟩
  | .mmioRead address size pc =>
    if a.probed then none
    else (fallsIntoMMIOBar p a.pci address).map fun i => ⟨.mmio, i, address - getBarLowAddr a.pci i, size.bytes, pc⟩
  | _ => none

def step (a : Alone) : Event → Alone
  | .portWrite port _ value => { a with pci := slotOnPortAccess p a.pci port value true }
  | .success => { a with probed := true }
  | event => { a with reads := a.reads ++ (a.read? p event).toList }

def run (s : State) (events : List Event) : Alone := events.foldl (step p) ⟨pluginInit2 p s, false, []⟩

def mmioReads (a : Alone) : List DeviceRead := a.reads.filter (·.kind = .mmio)

theorem step_of_isRead (a : Alone) {event : Event} (isRead : event.isRead) :
    a.step p event = { a with reads := a.reads ++ (a.read? p event).toList } := by
  cases event with
  | portRead | mmioRead => rfl
  | portWrite | success => cases isRead

theorem run_concat (s : State) (events : List Event) (event : Event) :
    run p s (events ++ [event]) = (run p s events).step p event := by simp [run]

/-- A read from a port adds a read of the other kind. -/
theorem mmioReads_portRead (a : Alone) (port : BitVec 16) (w : Width) (pc : BitVec 64) :
    (a.step p (.portRead port w pc)).mmioReads = a.mmioReads := by
  cases found : fallsIntoPIOBar p a.pci (port.setWidth 64) <;> simp [step, read?, mmioReads, found]

theorem step_probed {a : Alone} (probed : a.probed = true) (event : Event) :
    (a.step p event).probed = true ∧ (a.step p event).mmioReads = a.mmioReads := by
  cases event with
  | portWrite port w value => exact ⟨probed, rfl⟩
  | success => exact ⟨rfl, rfl⟩
  | mmioRead address size pc => simp [step, read?, mmioReads, probed]
  | portRead port w pc => exact ⟨probed, mmioReads_portRead p a port w pc⟩

/-- What happens after a success adds no MMIO read. -/
theorem run_probed {s : State} {events more : List Event} (probed : (run p s events).probed = true)
    (longer : events <+: more) :
    (run p s more).probed = true ∧ (run p s more).mmioReads = (run p s events).mmioReads := by
  obtain ⟨rest, rfl⟩ := longer
  induction rest using List.reverseRecOn with
  | nil => simpa using probed
  | append_singleton rest event ih =>
    rw [← List.append_assoc, run_concat]
    obtain ⟨still, same⟩ := ih
    obtain ⟨next, kept⟩ := step_probed p still event
    exact ⟨next, kept.trans same⟩

end Alone

/-! ## Following the paths -/

/-- A success with the path to it. -/
structure Report where
  events : List Event
  solution : Option (List (List UInt8))

/-- The executor with an observer, who writes down the events of each path and the successes. -/
structure Observed where
  engine : Engine
  history : Nat → List Event
  reports : List Report

namespace Observed

def init (p : Config) (s : State) : Observed := ⟨.init p s, fun _ => [], []⟩

/-- What the current state sees. -/
def seen : Move → Option Event
  | .portWrite port w value => some (.portWrite port w value)
  | .portRead port w pc => some (.portRead port w pc)
  | .mmioRead address size pc => some (.mmioRead address size pc)
  | .invoke guestDataPtr _ => if guestDataPtr = 1 then some .success else none
  | _ => none

def history' (o : Observed) : Action → Nat → List Event
  | .move .fork => Function.update o.history o.engine.nextId (o.history o.engine.current)
  | .move m =>
    match seen m with
    | some event => Function.update o.history o.engine.current (o.history o.engine.current ++ [event])
    | none => o.history
  | _ => o.history

def reports' (o : Observed) : Action → List Report
  | .move (.invoke guestDataPtr solution) =>
    if guestDataPtr = 1 then o.reports ++ [⟨o.history o.engine.current ++ [.success], solution⟩] else o.reports
  | _ => o.reports

variable (p : Config)

def step (o : Observed) (a : Action) : Option Observed :=
  (o.engine.step p a).map fun engine => ⟨engine, o.history' a, o.reports' a⟩

/-- Where the path of the current state leads. -/
def alone (s : State) (o : Observed) : Alone := .run p.toPlugin s (o.history o.engine.current)

/-- Any schedule of the states, any behaviour of the guest and of the solver. -/
def Steps (o : Observed) (a : Action) (t : Observed) : Prop := o.step p a = some t

end Observed

/-- The reads of a path, of which a delay may have left out some from ports. -/
structure Matches (p : Config) (reads : List DeviceRead) (alone : Alone) : Prop where
  mmio : reads.filter (·.kind = .mmio) = alone.mmioReads
  sublist : reads.Sublist alone.reads
  all : p.delayEnableSymbHW = 0 → reads = alone.reads

/-- A state is where its path leads. -/
structure Follows (p : Config) (path : Path) (alone : Alone) : Prop where
  pci : path.pci = alone.pci
  probed : path.deviceProbed = alone.probed
  reads : Matches p (path.symbolics.map Symbolic.read) alone
  next : path.nextSymbVarId = path.symbolics.length
  numbers : path.symbolics.map Symbolic.nextSymbVarId = List.range path.symbolics.length

section

variable {p : Config} {path : Path} {alone : Alone}

theorem Follows.names (follows : Follows p path alone) : (path.symbolics.map Symbolic.name).Nodup := by
  have distinct : (path.symbolics.map Symbolic.nextSymbVarId).Nodup := follows.numbers ▸ List.nodup_range
  exact (List.Nodup.of_map _ distinct).map_on fun v member v' member' same =>
    List.inj_on_of_nodup_map distinct member member' (Symbolic.number_of_name same)

/-- The read that the path makes alone, if it makes one, is made by the state as well. -/
theorem Matches.read {reads : List DeviceRead} (matching : Matches p reads alone) {event : Event}
    (isRead : event.isRead) :
    Matches p (reads ++ (alone.read? p.toPlugin event).toList) (alone.step p.toPlugin event) := by
  rw [alone.step_of_isRead p.toPlugin isRead]
  obtain ⟨mmio, sublist, all⟩ := matching
  constructor
  · rw [List.filter_append, mmio, Alone.mmioReads, Alone.mmioReads, List.filter_append]
  · exact sublist.append (List.Sublist.refl _)
  · intro immediate
    rw [all immediate]

/-- A read from a port is left out. -/
theorem Matches.delayed {reads : List DeviceRead} (matching : Matches p reads alone) (port : BitVec 16) (w : Width)
    (pc : BitVec 64) (delay : p.delayEnableSymbHW ≠ 0) :
    Matches p reads (alone.step p.toPlugin (.portRead port w pc)) := by
  constructor
  · rw [Alone.mmioReads_portRead, matching.mmio]
  · exact matching.sublist.trans (List.sublist_append_left _ _)
  · exact fun immediate => absurd immediate delay

end

/-- A solution that was printed, with the success that it was printed for. -/
def Prints (p : Config) (s : State) (testCase : TestCase) (printed : Report × List (List UInt8)) : Prop :=
  Matches p (testCase.map (·.1.read)) (Alone.run p.toPlugin s printed.1.events) ∧ testCase.map Prod.snd = printed.2

/-- The successes that the solver has found values for. -/
def solved (reports : List Report) : List (Report × List (List UInt8)) :=
  reports.filterMap fun r => r.solution.map (r, ·)

/-- What holds all the time. -/
structure Inv (p : Config) (s : State) (o : Observed) : Prop where
  fresh : ∀ id ∈ o.engine.states, id < o.engine.nextId
  immediate : p.delayEnableSymbHW = 0 → o.engine.count = 0
  isolated : ∀ id ∈ o.engine.states, Follows p (o.engine.path id) (Alone.run p.toPlugin s (o.history id))
  printed : List.Forall₂ (Prints p s) o.engine.testCases (solved o.reports)
  successes : ∀ r ∈ o.reports, (Alone.run p.toPlugin s r.events).probed = true
  descend : ∀ r ∈ o.reports, ∀ id ∈ o.engine.live, r.events <+: o.history id
  chain : o.reports.Pairwise fun r later => r.events <+: later.events
  silent : o.reports = [] → o.engine.messages = [] ∧
    ∀ id ∈ o.engine.states, (o.engine.path id).deviceProbed = false ∧ (o.engine.path id).kvmIrq = none

namespace Inv

variable {p : Config} {s : State} {o : Observed}

theorem init (p : Config) (s : State) : Inv p s (.init p s) where
  fresh := by simp [Observed.init, Engine.init]
  immediate := id
  isolated _ _ := ⟨rfl, rfl, ⟨rfl, List.Sublist.refl _, fun _ => rfl⟩, rfl, rfl⟩
  printed := .nil
  successes := nofun
  descend := nofun
  chain := .nil
  silent _ := ⟨rfl, fun _ _ => ⟨rfl, rfl⟩⟩

/-- The current state goes on by an event that is no success. -/
theorem perform (inv : Inv p s o) {e : Engine} {path : Path} {event : Event}
    (paths : e.path = Function.update o.engine.path o.engine.current path)
    (follows : Follows p path ((o.alone p s).step p.toPlugin event))
    (count : o.engine.count = 0 → e.count = 0)
    (same : path.deviceProbed = o.engine.now.deviceProbed) (irq : path.kvmIrq = o.engine.now.kvmIrq)
    (rest : e.states = o.engine.states ∧ e.removedStates = o.engine.removedStates ∧ e.nextId = o.engine.nextId ∧
      e.testCases = o.engine.testCases ∧ e.messages = o.engine.messages) :
    Inv p s ⟨e, Function.update o.history o.engine.current (o.history o.engine.current ++ [event]), o.reports⟩ := by
  obtain ⟨states, removed, nextId, testCases, messages⟩ := rest
  have live : e.live = o.engine.live := by simp [Engine.live, states, removed]
  constructor
  case fresh => simpa [states, nextId] using inv.fresh
  case immediate => exact fun immediate => count (inv.immediate immediate)
  case isolated =>
    intro id member
    rw [states] at member
    by_cases here : id = o.engine.current
    · subst here
      simpa [paths, Alone.run_concat, Observed.alone] using follows
    · simpa [paths, here] using inv.isolated id member
  case printed => simpa [testCases] using inv.printed
  case successes => exact inv.successes
  case descend =>
    intro r member id alive
    rw [live] at alive
    have before := inv.descend r member id alive
    by_cases here : id = o.engine.current
    · subst here
      simpa using before.trans (List.prefix_append _ _)
    · simpa [here] using before
  case chain => exact inv.chain
  case silent =>
    intro none
    obtain ⟨quiet, unprobed⟩ := inv.silent none
    refine ⟨messages.trans quiet, fun id member => ?_⟩
    rw [states] at member
    by_cases here : id = o.engine.current
    · subst here
      simpa [paths, same, irq, Engine.now] using unprobed _ member
    · simpa [paths, here] using unprobed id member

theorem now (inv : Inv p s o) (alive : o.engine.current ∈ o.engine.live) :
    Follows p o.engine.now (o.alone p s) :=
  inv.isolated _ (Finset.mem_sdiff.mp alive).1

theorem portWrite (inv : Inv p s o) (alive : o.engine.current ∈ o.engine.live) (port : Expr 16) {w : Width}
    (value : Expr w.bits) {count : Int} (down : o.engine.count = 0 → count = 0) :
    Inv p s ⟨{ o.engine with count := count }.setNow
        { o.engine.now with pci := slotOnPortAccess p.toPlugin o.engine.now.pci port value true },
      Function.update o.history o.engine.current (o.history o.engine.current ++ [.portWrite port w value]), o.reports⟩ := by
  obtain ⟨pci, probed, ⟨mmio, sublist, all⟩, next, numbers⟩ := inv.now alive
  have follows : Follows p { o.engine.now with pci := slotOnPortAccess p.toPlugin o.engine.now.pci port value true }
      ((o.alone p s).step p.toPlugin (.portWrite port w value)) :=
    ⟨by simp [Alone.step, pci], probed, ⟨mmio, sublist, all⟩, next, numbers⟩
  exact inv.perform rfl follows down rfl rfl ⟨rfl, rfl, rfl, rfl, rfl⟩

/-- The state does not change, and the reads it has made are still those of its path. -/
theorem unread (inv : Inv p s o) (alive : o.engine.current ∈ o.engine.live) {event : Event} (isRead : event.isRead)
    (reads : Matches p (o.engine.now.symbolics.map Symbolic.read) ((o.alone p s).step p.toPlugin event)) {count : Int}
    (down : o.engine.count = 0 → count = 0) :
    Inv p s ⟨{ o.engine with count := count },
      Function.update o.history o.engine.current (o.history o.engine.current ++ [event]), o.reports⟩ := by
  obtain ⟨pci, probed, -, next, numbers⟩ := inv.now alive
  have self : o.engine.path = Function.update o.engine.path o.engine.current o.engine.now := by simp [Engine.now]
  have follows : Follows p o.engine.now ((o.alone p s).step p.toPlugin event) := by
    refine ⟨?_, ?_, reads, next, numbers⟩
    · rw [Alone.step_of_isRead _ _ isRead]
      exact pci
    · rw [Alone.step_of_isRead _ _ isRead]
      exact probed
  exact inv.perform self follows down rfl rfl ⟨rfl, rfl, rfl, rfl, rfl⟩

/-- A read that is made symbolic if it is in a BAR. -/
theorem read (inv : Inv p s o) (alive : o.engine.current ∈ o.engine.live) {event : Event} (isRead : event.isRead)
    {e : Engine}
    (effect : e = match (o.alone p s).read? p.toPlugin event with
      | some read => o.engine.createSymbolicValue read
      | none => o.engine) :
    Inv p s ⟨e, Function.update o.history o.engine.current (o.history o.engine.current ++ [event]), o.reports⟩ := by
  obtain ⟨pci, probed, reads, next, numbers⟩ := inv.now alive
  have after := reads.read isRead
  subst effect
  cases found : (o.alone p s).read? p.toPlugin event with
  | none =>
    rw [found] at after
    exact inv.unread alive isRead (by simpa using after) fun zero : o.engine.count = 0 => zero
  | some read =>
    rw [found] at after
    refine inv.perform rfl ⟨?_, ?_, ?_, ?_, ?_⟩ id rfl rfl ⟨rfl, rfl, rfl, rfl, rfl⟩
    · rw [Alone.step_of_isRead _ _ isRead]
      exact pci
    · rw [Alone.step_of_isRead _ _ isRead]
      exact probed
    · simpa [Engine.now] using after
    · simpa [Engine.now] using next
    · simpa [Engine.now, List.range_succ] using And.intro numbers next

theorem fork (inv : Inv p s o) (alive : o.engine.current ∈ o.engine.live) :
    Inv p s ⟨o.engine.fork, Function.update o.history o.engine.nextId (o.history o.engine.current), o.reports⟩ := by
  have old : ∀ id ∈ o.engine.live, id ≠ o.engine.nextId := fun id member =>
    (inv.fresh id (Finset.mem_sdiff.mp member).1).ne
  have stays : ∀ id ∈ o.engine.live, id ∈ o.engine.states := fun id member => (Finset.mem_sdiff.mp member).1
  constructor
  case fresh =>
    intro id member
    rcases Finset.mem_insert.mp member with rfl | member
    · exact Nat.lt_succ_self _
    · exact (inv.fresh id (stays id member)).trans (Nat.lt_succ_self _)
  case immediate => exact inv.immediate
  case isolated =>
    intro id member
    rcases Finset.mem_insert.mp member with rfl | member
    · simpa [Engine.fork, Observed.alone] using inv.now alive
    · simpa [Engine.fork, old id member] using inv.isolated id (stays id member)
  case printed => exact inv.printed
  case successes => exact inv.successes
  case descend =>
    intro r report id member
    have member : id ∈ insert o.engine.nextId o.engine.live := by simpa [Engine.live, Engine.fork] using member
    rcases Finset.mem_insert.mp member with rfl | member
    · simpa using inv.descend r report _ alive
    · simpa [old id member] using inv.descend r report id member
  case chain => exact inv.chain
  case silent =>
    intro none
    obtain ⟨quiet, unprobed⟩ := inv.silent none
    refine ⟨quiet, fun id member => ?_⟩
    rcases Finset.mem_insert.mp member with rfl | member
    · simpa [Engine.fork, Engine.now] using unprobed _ (stays _ alive)
    · simpa [Engine.fork, old id member] using unprobed id (stays id member)

/-- States are only taken away. -/
theorem shrink (inv : Inv p s o) {e : Engine} (same : e.nextId = o.engine.nextId ∧ e.testCases = o.engine.testCases ∧
      e.path = o.engine.path) (count : o.engine.count = 0 → e.count = 0) (states : e.states ⊆ o.engine.states) (live : e.live ⊆ o.engine.live)
    (messages : o.reports = [] → e.messages = []) : Inv p s ⟨e, o.history, o.reports⟩ := by
  obtain ⟨nextId, testCases, paths⟩ := same
  constructor
  case fresh => exact fun id member => nextId ▸ inv.fresh id (states member)
  case immediate => exact fun immediate => count (inv.immediate immediate)
  case isolated => exact fun id member => paths ▸ inv.isolated id (states member)
  case printed => simpa [testCases] using inv.printed
  case successes => exact inv.successes
  case descend => exact fun r report id member => inv.descend r report id (live member)
  case chain => exact inv.chain
  case silent => exact fun none => ⟨messages none, fun id member => paths ▸ (inv.silent none).2 id (states member)⟩

theorem updateStates (inv : Inv p s o) (current : Nat) :
    Inv p s ⟨{ o.engine.updateStates with current := current }, o.history, o.reports⟩ := by
  refine inv.shrink ⟨rfl, rfl, rfl⟩ id Finset.sdiff_subset ?_ fun none => (inv.silent none).1
  simp [Engine.live, Engine.updateStates]

theorem killed_eq_nil (inv : Inv p s o) (none : o.reports = []) {ids : Finset Nat} (subset : ids ⊆ o.engine.states) :
    o.engine.killed p ids = [] := by
  have unprobed := (inv.silent none).2
  have empty : (ids.filter fun id => (o.engine.path id).deviceProbed) = ∅ := by
    refine Finset.filter_false_of_mem fun id member => ?_
    simp [unprobed id (subset member)]
  simp [Engine.killed, empty]

theorem terminateStates (inv : Inv p s o) {ids : Finset Nat} (subset : ids ⊆ o.engine.states) :
    Inv p s ⟨o.engine.terminateStates p ids, o.history, o.reports⟩ := by
  refine inv.shrink ⟨rfl, rfl, rfl⟩ id (Finset.Subset.refl _) ?_ fun none => ?_
  · exact Finset.sdiff_subset_sdiff (Finset.Subset.refl _) Finset.subset_union_left
  · simp [Engine.terminateStates, (inv.silent none).1, inv.killed_eq_nil none subset]

theorem onInstruction (inv : Inv p s o) (alive : o.engine.current ∈ o.engine.live) {e : Engine}
    (taken : o.engine.onInstruction p = some e) : Inv p s ⟨e, o.history, o.reports⟩ := by
  unfold Engine.onInstruction at taken
  split_ifs at taken with off zero
  · obtain rfl := Option.some.inj taken
    exact inv
  · -- the state is probed, so there has been a success
    have reported : o.reports ≠ [] := by
      intro none
      have unprobed := (inv.silent none).2 _ (Finset.mem_sdiff.mp alive).1
      simp [Engine.now, unprobed.1] at off
    obtain rfl := Option.some.inj taken
    split_ifs
    · have same : ∀ id, Follows p (o.engine.path id) (Alone.run p.toPlugin s (o.history id)) →
          Follows p (Function.update o.engine.path o.engine.current { o.engine.now with kvmIrq := some p.irq } id)
            (Alone.run p.toPlugin s (o.history id)) := by
        intro id follows
        by_cases here : id = o.engine.current
        · subst here
          rw [Function.update_self]
          exact ⟨follows.pci, follows.probed, follows.reads, follows.next, follows.numbers⟩
        · rwa [Function.update_of_ne here]
      exact ⟨inv.fresh, inv.immediate, fun id member => same id (inv.isolated id member), inv.printed, inv.successes, inv.descend,
        inv.chain, fun none => absurd none reported⟩
    · exact inv.shrink ⟨rfl, rfl, rfl⟩ id (Finset.Subset.refl _) (Finset.Subset.refl _) fun none => absurd none reported

theorem slotExecuteBlockStart (inv : Inv p s o) (alive : o.engine.current ∈ o.engine.live) (pc : BitVec 64) :
    Inv p s ⟨o.engine.slotExecuteBlockStart p pc, o.history, o.reports⟩ := by
  unfold Engine.slotExecuteBlockStart
  split_ifs with probed
  · refine inv.shrink ⟨rfl, rfl, rfl⟩ id (Finset.Subset.refl _) (Finset.Subset.refl _) fun none => ?_
    have unprobed := (inv.silent none).2 _ (Finset.mem_sdiff.mp alive).1
    simp [Engine.now, unprobed.1] at probed
  · exact inv

theorem success (inv : Inv p s o) (alive : o.engine.current ∈ o.engine.live) {solution : Option (List (List UInt8))}
    {e : Engine} (succeeds : o.engine.Succeeds solution e) :
    Inv p s ⟨e, Function.update o.history o.engine.current (o.history o.engine.current ++ [.success]),
      o.reports ++ [⟨o.history o.engine.current ++ [.success], solution⟩]⟩ := by
  have here := inv.now alive
  have through : Alone.run p.toPlugin s (o.history o.engine.current ++ [.success]) = { o.alone p s with probed := true } :=
    Alone.run_concat ..
  have longer : ∀ r ∈ o.reports, r.events <+: o.history o.engine.current ++ [.success] := fun r report =>
    (inv.descend r report _ alive).trans (List.prefix_append _ _)
  constructor
  case fresh =>
    rw [succeeds.states, succeeds.nextId]
    exact inv.fresh
  case immediate =>
    rw [succeeds.count]
    exact inv.immediate
  case isolated =>
    intro id member
    rw [succeeds.states] at member
    simp only [succeeds.path]
    by_cases same : id = o.engine.current
    · subst same
      rw [Function.update_self, Function.update_self, through]
      exact ⟨here.pci, rfl, ⟨here.reads.mmio, here.reads.sublist, here.reads.all⟩, here.next, here.numbers⟩
    · rw [Function.update_of_ne same, Function.update_of_ne same]
      exact inv.isolated id member
  case printed =>
    rw [succeeds.testCases, solved, List.filterMap_append]
    refine List.rel_append inv.printed ?_
    cases solution with
    | none => exact .nil
    | some values =>
      have length := succeeds.fits values rfl
      have firsts : (o.engine.now.symbolics.zip values).map (·.1.read) = o.engine.now.symbolics.map Symbolic.read := by
        have parts := List.map_map (f := Prod.fst) (g := Symbolic.read) (l := o.engine.now.symbolics.zip values)
        rw [List.map_fst_zip length.ge] at parts
        exact parts.symm
      refine .cons ⟨?_, List.map_snd_zip length.le⟩ .nil
      rw [firsts]
      show Matches p _ (Alone.run p.toPlugin s (o.history o.engine.current ++ [.success]))
      rw [through]
      exact ⟨here.reads.mmio, here.reads.sublist, here.reads.all⟩
  case successes =>
    intro r report
    rcases List.mem_append.mp report with report | new
    · exact inv.successes r report
    · rw [List.mem_singleton.mp new, through]
  case descend =>
    intro r report id member
    obtain rfl := succeeds.only id member
    simp only [Function.update_self]
    rcases List.mem_append.mp report with report | new
    · exact longer r report
    · rw [List.mem_singleton.mp new]
  case chain =>
    refine List.pairwise_append.mpr ⟨inv.chain, List.pairwise_singleton _ _, fun r report later new => ?_⟩
    rw [List.mem_singleton.mp new]
    exact longer r report
  case silent => simp

end Inv

/-! ## Steps -/

section

variable {p : Config} {s : State} {o : Observed}

/-- Without a delay the executor and the path alone agree on which reads are made symbolic. -/
theorem Inv.portRead (inv : Inv p s o) (alive : o.engine.current ∈ o.engine.live) (port : BitVec 16) (w : Width)
    (pc : BitVec 64) :
    Inv p s ⟨if (o.engine.isPortSymbolic p port).1 then
          (o.engine.isPortSymbolic p port).2.createExpressionPort p (port.setWidth 64) w pc
        else (o.engine.isPortSymbolic p port).2,
      Function.update o.history o.engine.current (o.history o.engine.current ++ [.portRead port w pc]), o.reports⟩ := by
  obtain ⟨pci, -, reads, -, -⟩ := inv.now alive
  by_cases delayed : o.engine.count ≠ 0
  · -- some state has not yet used up the delay
    have asked : o.engine.isPortSymbolic p port = (false, { o.engine with count := o.engine.count - 1 }) := if_pos delayed
    rw [asked]
    refine inv.unread alive rfl (reads.delayed port w pc ?_) fun zero => absurd zero delayed
    exact fun immediate => delayed (inv.immediate immediate)
  · have asked : o.engine.isPortSymbolic p port = (decide ((0xcf8 ≤ port ∧ port ≤ 0xcff) ∨
        (fallsIntoPIOBar p.toPlugin o.engine.now.pci (port.setWidth 64)).isSome), o.engine) := if_neg delayed
    rw [asked]
    refine inv.read alive rfl ?_
    simp only [Engine.createExpressionPort, Alone.read?, pci]
    cases fallsIntoPIOBar p.toPlugin (o.alone p s).pci (port.setWidth 64) with
    | none => simp
    | some i => simp

theorem Inv.mmioRead (inv : Inv p s o) (alive : o.engine.current ∈ o.engine.live) (address : BitVec 64) (size : AccessSize)
    (pc : BitVec 64) :
    Inv p s ⟨o.engine.createExpressionMMIO p address size pc,
      Function.update o.history o.engine.current (o.history o.engine.current ++ [.mmioRead address size pc]), o.reports⟩ := by
  obtain ⟨pci, probed, -, -, -⟩ := inv.now alive
  refine inv.read alive rfl ?_
  simp only [Engine.createExpressionMMIO, Alone.read?, pci, probed]
  cases (o.alone p s).probed <;> cases fallsIntoMMIOBar p.toPlugin (o.alone p s).pci address <;> rfl

theorem inv_step {a : Action} {t : Observed} (inv : Inv p s o) (taken : o.Steps p a t) : Inv p s t := by
  obtain ⟨e, step, rfl⟩ := Option.map_eq_some_iff.mp taken
  cases a with
  | update =>
    obtain rfl := Option.some.inj step
    exact inv.updateStates o.engine.current
  | switchTo id =>
    obtain ⟨-, step⟩ := Option.ite_none_right_eq_some.mp step
    obtain rfl := Option.some.inj step
    exact inv.updateStates id
  | move m =>
    obtain ⟨alive, step⟩ := Option.ite_none_right_eq_some.mp step
    have itself : {o.engine.current} ⊆ o.engine.states :=
      Finset.singleton_subset_iff.mpr (Finset.mem_sdiff.mp alive).1
    cases m with
    | checkPort port =>
      obtain ⟨count, down, asked⟩ := o.engine.isPortSymbolic_eq p port
      obtain rfl := Option.some.inj step
      rw [asked]
      exact inv.shrink ⟨rfl, rfl, rfl⟩ down (Finset.Subset.refl _) (Finset.Subset.refl _) fun none => (inv.silent none).1
    | portWrite port w value =>
      obtain ⟨count, down, asked⟩ := o.engine.isPortSymbolic_eq p (port.concrete.setWidth 16)
      obtain rfl := Option.some.inj step
      rw [asked]
      exact inv.portWrite alive port value down
    | portRead port w pc =>
      obtain rfl := Option.some.inj step
      exact inv.portRead alive port w pc
    | mmioRead address size pc =>
      obtain rfl := Option.some.inj step
      exact inv.mmioRead alive address size pc
    | fork =>
      obtain rfl := Option.some.inj step
      exact inv.fork alive
    | block pc =>
      obtain rfl := Option.some.inj step
      exact inv.slotExecuteBlockStart alive pc
    | instruction => exact inv.onInstruction alive step
    | terminate =>
      obtain rfl := Option.some.inj step
      exact inv.terminateStates itself
    | invoke guestDataPtr solution =>
      by_cases success : guestDataPtr = 1
      · subst success
        exact inv.success alive (Engine.succeeds step)
      · simp only [Observed.history', Observed.reports', Observed.seen, success, if_false]
        simp only [Engine.move, Engine.handleOpcodeInvocation, success, if_false] at step
        split_ifs at step <;> obtain rfl := Option.some.inj step
        · exact inv.terminateStates itself
        · exact inv

/-! ## Runs -/

/-- What an exploration has come to. -/
structure Explored (p : Config) (s : State) (o : Observed) : Prop where
  /-- A state is where its path leads alone, whatever the other states have done, but for a delay of its port reads. -/
  isolated : ∀ id ∈ o.engine.states, Follows p (o.engine.path id) (Alone.run p.toPlugin s (o.history id))
  /-- No two of its values have the same name. -/
  named : ∀ id ∈ o.engine.states, ((o.engine.path id).symbolics.map Symbolic.name).Nodup
  /-- Printed are the reads of the paths that have succeeded. -/
  printed : List.Forall₂ (Prints p s) o.engine.testCases (solved o.reports)
  /-- Whoever is left after a success has come from it, is probed and makes no more MMIO reads symbolic. -/
  settled : ∀ r ∈ o.reports, ∀ id ∈ o.engine.live, r.events <+: o.history id ∧ (o.engine.path id).deviceProbed = true ∧
    (Alone.run p.toPlugin s (o.history id)).mmioReads = (Alone.run p.toPlugin s r.events).mmioReads
  /-- A later success prints the same MMIO reads again. -/
  repeated : o.reports.Pairwise fun r later =>
    (Alone.run p.toPlugin s later.events).mmioReads = (Alone.run p.toPlugin s r.events).mmioReads
  /-- Before the first success no state is probed, AFL hears nothing, and there are no interrupts. -/
  silent : o.reports = [] → o.engine.messages = [] ∧
    ∀ id ∈ o.engine.states, (o.engine.path id).deviceProbed = false ∧ (o.engine.path id).kvmIrq = none

theorem explored_of_run {actions : List Action} (run : Run (Observed.Steps p) (.init p s) actions o) :
    Explored p s o := by
  have inv : Inv p s o := run.invariant (fun _ _ _ inv step => inv_step inv step) (Inv.init p s)
  refine ⟨inv.isolated, fun id member => (inv.isolated id member).names, inv.printed, fun r report id alive => ?_, ?_, inv.silent⟩
  · have descends := inv.descend r report id alive
    obtain ⟨probed, reads⟩ := Alone.run_probed p.toPlugin (inv.successes r report) descends
    have follows := inv.isolated id (Finset.mem_sdiff.mp alive).1
    exact ⟨descends, follows.probed.trans probed, reads⟩
  · refine inv.chain.imp_of_mem fun report _ descends => ?_
    exact (Alone.run_probed p.toPlugin (inv.successes _ report) descends).2

end

/-- A network card at 00:1b.0 whose BARs are all of the MMIO kind. -/
def networkCard : Config where
  nBus := 0
  nDevice := 0x1b
  nFunction := 1
  barConfiguration _ := ⟨0, 0xfff80000⟩
  regVid := 0x8086
  regPid := 0x100e
  regSubVid := 0
  regSubPid := 0
  regClass := 0x02000000
  regBhlc := 0
  useCapability := false
  delayEnableSymbHW := 0
  withAFL := true
  irq := -1
  injectIrqPerXxxIns := 0

/-- The guest places BAR 0 and reads a register; one of the two states at the branch on it gets through. -/
def probing : List Action :=
  [.move (.portWrite (.constant 0xcf8) .dword (.constant 0x8000d810)),
    .move (.portWrite (.constant 0xcfc) .dword (.constant 0xfe000000)),
    .move (.mmioRead 0xfe000010 .l 0xffffffff81000000), .move .fork, .switchTo 1, .move (.block 0xffffffff81000004),
    .move (.invoke 1 (some [[1, 0, 0, 0]])), .move (.block 0xffffffff81000008), .update]

theorem explored_probing : ∃ o, Run (Observed.Steps networkCard) (.init networkCard ⟨0, fun _ => 0, 0⟩) probing o ∧
    o.engine.testCases.length = 1 ∧ Explored networkCard ⟨0, fun _ => 0, 0⟩ o := by
  have reached : (probing.foldlM (Observed.step networkCard) (.init networkCard ⟨0, fun _ => 0, 0⟩)).map
      (fun o => o.engine.testCases.length) = some 1 := by
    decide +kernel
  obtain ⟨o, steps, printed⟩ := Option.map_eq_some_iff.mp reached
  exact ⟨o, Run.of_foldlM steps, printed, explored_of_run (Run.of_foldlM steps)⟩

end DevFuzz.PeX.Exploration
