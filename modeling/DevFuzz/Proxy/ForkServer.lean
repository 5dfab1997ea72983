import Mathlib.Data.List.Basic
import Mathlib.Logic.Function.Basic
import DevFuzz.Lib.Run

/-! # The fork server

`AFLForkServer` of `proxy/aflclient.h` runs an AP process for every request of
AFL.  A request comes in over one pipe, the PID of the child and then its wait
status go back over the other.  In persistent mode a child may stop instead of
ending; it is then continued for the next request, unless AFL has killed it.

AFL writes requests, and children end, stop and go on, at any time.  `processes`
are the children that have not been waited for.  The ghost field `log` keeps what
has happened to them, `words` what has been written to AFL.
-/

namespace DevFuzz.Proxy.ForkServer

open DevFuzz.Lib

/-! ## Children -/

inductive Ending where
  | exited (code : UInt8)
  | signalled (signal : Fin 65) (core : Bool)
  deriving DecidableEq, Repr

/-- `SIGABRT` with a core dump -/
def Ending.abort : Ending := .signalled 6 true

/-- What `waitpid` reports. -/
inductive Status where
  | ended (ending : Ending)
  | stopped (signal : Fin 65)
  deriving DecidableEq, Repr

/-- The `int` that `waitpid` fills in. -/
def Status.encode : Status → Nat
  | .ended (.exited code) => code.toNat * 256
  | .ended (.signalled signal core) => signal + if core then 128 else 0
  | .stopped signal => signal * 256 + 127

/-- `WIFSTOPPED(status)` -/
def wifstopped (status : Nat) : Bool := status % 256 == 127

@[simp] theorem wifstopped_ended (ending : Ending) : wifstopped (Status.ended ending).encode = false := by
  cases ending with
  | exited code => simp [wifstopped, Status.encode]
  | signalled signal core =>
    have := signal.isLt
    cases core <;> simp [wifstopped, Status.encode] <;> omega

@[simp] theorem wifstopped_stopped (signal : Fin 65) : wifstopped (Status.stopped signal).encode = true := by
  simp [wifstopped, Status.encode]

/-- A child that has not been waited for.  A stop is reported once. -/
inductive Process where
  | running
  | stopped (signal : Fin 65) (reported : Bool)
  | ended (ending : Ending)
  deriving DecidableEq, Repr

/-- `waitpid` fails for a process that is not a child, blocks while there is nothing to report, or
    reports and leaves the child changed or gone. -/
inductive Waited where
  | failed
  | blocked
  | reported (status : Status) (left : Option Process)

def waitpid (untraced : Bool) : Option Process → Waited
  | none => .failed
  | some .running => .blocked
  | some (.stopped signal reported) =>
    if untraced && !reported then .reported (.stopped signal) (some (.stopped signal true)) else .blocked
  | some (.ended ending) => .reported (.ended ending) none

/-- `SIGCONT`; a child that has ended takes no notice of it. -/
def Process.continued : Process → Process
  | .stopped _ _ => .running
  | process => process

/-! ## The server -/

inductive Word where
  | hello
  | pid (pid : Nat)
  | status (status : Nat)
  deriving DecidableEq, Repr

inductive Event where
  | forked (pid : Nat)
  | resumed (pid : Nat)
  | reported (pid : Nat) (status : Status)
  /-- a stopped child that AFL has killed is waited for without a report to AFL -/
  | writtenOff (pid : Nat) (status : Status)
  deriving DecidableEq, Repr

inductive Pc where
  | hello                       -- the first `write` next
  | read                        -- at the `read` of `was_killed`
  | reap                        -- at the `waitpid` that writes the old process off
  | launch                      -- `if (!child_stopped)` next
  | writePid
  | wait                        -- at the second `waitpid`
  | writeStatus (status : Nat)
  | exited                      -- `exit(1)`
  | alone                       -- without a parent the program runs by itself
  deriving DecidableEq, Repr

structure Server where
  pc : Pc
  /-- not initialised before the first `fork` -/
  childPid : Option Nat
  childStopped : Bool
  processes : Nat → Option Process
  /-- requests in the pipe -/
  requests : List UInt32
  /-- requests read so far -/
  read : Nat
  words : List Word
  log : List Event

def Server.init : Server := ⟨.hello, none, false, fun _ => none, [], 0, [], []⟩

/-- One of the two `waitpid`s, with what is done after it. -/
def Server.await (s : Server) (untraced : Bool) (after : Nat → Status → Server → Server) : Option Server :=
  match s.childPid with
  | none => some { s with pc := .exited }
  | some pid =>
    match waitpid untraced (s.processes pid) with
    | .failed => some { s with pc := .exited }
    | .blocked => none
    | .reported status left => some (after pid status { s with processes := Function.update s.processes pid left })

/-- The next step of the server, if it is neither blocked nor at `fork`. -/
def Server.next (persistent : Bool) (s : Server) : Option Server :=
  match s.pc with
  | .hello => some { s with words := s.words ++ [.hello], pc := .read }
  | .read =>
    match s.requests with
    | [] => none
    | wasKilled :: requests =>
      let s := { s with requests := requests, read := s.read + 1 }
      if s.childStopped && wasKilled ≠ 0 then some { s with childStopped := false, pc := .reap }
      else some { s with pc := .launch }
  | .reap =>
    s.await false fun pid status s => { s with log := s.log ++ [.writtenOff pid status], pc := .launch }
  | .launch =>
    match s.childStopped, s.childPid with
    | true, some pid =>
      some { s with
        processes := Function.update s.processes pid ((s.processes pid).map Process.continued)
        log := s.log ++ [.resumed pid], childStopped := false, pc := .writePid }
    | _, _ => none
  | .writePid =>
    match s.childPid with
    | some pid => some { s with words := s.words ++ [.pid pid], pc := .wait }
    | none => none
  | .wait =>
    s.await persistent fun pid status s =>
      { s with
        log := s.log ++ [.reported pid status]
        childStopped := if wifstopped status.encode then true else s.childStopped
        pc := .writeStatus status.encode }
  | .writeStatus status => some { s with words := s.words ++ [.status status], pc := .read }
  | .exited => none
  | .alone => none

/-- `fork` returns to the parent. -/
def Server.fork (s : Server) (pid : Nat) : Option Server :=
  if s.pc = .launch ∧ s.childStopped = false ∧ 0 < pid ∧ s.processes pid = none then
    some { s with
      childPid := some pid, processes := Function.update s.processes pid (some .running)
      log := s.log ++ [.forked pid], pc := .writePid }
  else none

/-- A `read`, a `write` or a `fork` fails. -/
def Server.fail (s : Server) : Option Server :=
  match s.pc with
  | .hello => some { s with pc := .alone }
  | .read => some { s with pc := .exited }
  | .launch => if s.childStopped then none else some { s with pc := .exited }
  | .writePid => some { s with pc := .exited }
  | .writeStatus _ => some { s with pc := .exited }
  | _ => none

/-- What a child does by itself or by a signal from anywhere, `SIGKILL` of AFL among them. -/
inductive Change where
  | ends (ending : Ending)
  | stops (signal : Fin 65)
  | continues
  deriving DecidableEq, Repr

def Process.change : Process → Change → Option Process
  | .ended _, _ => none
  | _, .ends ending => some (.ended ending)
  | .running, .stops signal => some (.stopped signal false)
  | .stopped _ _, .continues => some .running
  | _, _ => none

inductive Action where
  | request (wasKilled : UInt32)
  | server
  | fork (pid : Nat)
  | fail
  | child (pid : Nat) (change : Change)
  deriving DecidableEq, Repr

def Server.child (s : Server) (pid : Nat) (change : Change) : Option Server :=
  (s.processes pid).bind fun process =>
    (process.change change).map fun process => { s with processes := Function.update s.processes pid (some process) }

def step (persistent : Bool) (s : Server) : Action → Option Server
  | .request wasKilled => some { s with requests := s.requests ++ [wasKilled] }
  | .server => s.next persistent
  | .fork pid => s.fork pid
  | .fail => s.fail
  | .child pid change => s.child pid change

/-- Any interleaving of the server, AFL and the children. -/
def Steps (persistent : Bool) (s : Server) (a : Action) (t : Server) : Prop := step persistent s a = some t

/-- The steps of the server, one by one. -/
inductive Moved (persistent : Bool) (s : Server) : Server → Prop where
  | hello (pc : s.pc = .hello) : Moved persistent s { s with words := s.words ++ [.hello], pc := .read }
  | killed {wasKilled : UInt32} {requests : List UInt32} (pc : s.pc = .read) (pipe : s.requests = wasKilled :: requests)
      (stopped : s.childStopped = true) :
      Moved persistent s { s with requests := requests, read := s.read + 1, childStopped := false, pc := .reap }
  | asked {wasKilled : UInt32} {requests : List UInt32} (pc : s.pc = .read) (pipe : s.requests = wasKilled :: requests) :
      Moved persistent s { s with requests := requests, read := s.read + 1, pc := .launch }
  | missing (pc : s.pc = .reap ∨ s.pc = .wait) (none : s.childPid.bind s.processes = none) :
      Moved persistent s { s with pc := .exited }
  | writtenOff {pid : Nat} {ending : Ending} (pc : s.pc = .reap) (childPid : s.childPid = some pid)
      (process : s.processes pid = some (.ended ending)) :
      Moved persistent s { s with
        processes := Function.update s.processes pid none
        log := s.log ++ [.writtenOff pid (.ended ending)], pc := .launch }
  | resumed {pid : Nat} (pc : s.pc = .launch) (childPid : s.childPid = some pid) (stopped : s.childStopped = true) :
      Moved persistent s { s with
        processes := Function.update s.processes pid ((s.processes pid).map Process.continued)
        log := s.log ++ [.resumed pid], childStopped := false, pc := .writePid }
  | wrotePid {pid : Nat} (pc : s.pc = .writePid) (childPid : s.childPid = some pid) :
      Moved persistent s { s with words := s.words ++ [.pid pid], pc := .wait }
  | ended {pid : Nat} {ending : Ending} (pc : s.pc = .wait) (childPid : s.childPid = some pid)
      (process : s.processes pid = some (.ended ending)) :
      Moved persistent s { s with
        processes := Function.update s.processes pid none
        log := s.log ++ [.reported pid (.ended ending)], pc := .writeStatus (Status.ended ending).encode }
  | stopped {pid : Nat} {signal : Fin 65} (mode : persistent = true) (pc : s.pc = .wait)
      (childPid : s.childPid = some pid) (process : s.processes pid = some (.stopped signal false)) :
      Moved persistent s { s with
        processes := Function.update s.processes pid (some (.stopped signal true))
        log := s.log ++ [.reported pid (.stopped signal)], childStopped := true
        pc := .writeStatus (Status.stopped signal).encode }
  | wroteStatus {status : Nat} (pc : s.pc = .writeStatus status) :
      Moved persistent s { s with words := s.words ++ [.status status], pc := .read }

/-- The three ways in which a `waitpid` of the server goes on. -/
theorem Server.await_cases {s t : Server} {untraced : Bool} {after : Nat → Status → Server → Server}
    (taken : s.await untraced after = some t) :
    (s.childPid.bind s.processes = none ∧ t = { s with pc := .exited }) ∨
      (∃ pid ending, s.childPid = some pid ∧ s.processes pid = some (.ended ending) ∧
        t = after pid (.ended ending) { s with processes := Function.update s.processes pid none }) ∨
      ∃ pid signal, untraced = true ∧ s.childPid = some pid ∧ s.processes pid = some (.stopped signal false) ∧
        t = after pid (.stopped signal)
          { s with processes := Function.update s.processes pid (some (.stopped signal true)) } := by
  unfold Server.await at taken
  cases childPid : s.childPid with
  | none =>
    rw [childPid] at taken
    exact .inl ⟨rfl, (Option.some.inj taken).symm⟩
  | some pid =>
    rw [childPid] at taken
    cases process : s.processes pid with
    | none =>
      simp only [process, waitpid, Option.some.injEq] at taken
      exact .inl ⟨process, taken.symm⟩
    | some process' =>
      cases process' with
      | running => simp [process, waitpid] at taken
      | ended ending =>
        simp only [process, waitpid, Option.some.injEq] at taken
        exact .inr (.inl ⟨pid, ending, rfl, process, taken.symm⟩)
      | stopped signal reported =>
        cases untraced <;> cases reported <;> simp [process, waitpid] at taken
        exact .inr (.inr ⟨pid, signal, rfl, rfl, process, taken.symm⟩)

theorem moved_of_next {persistent : Bool} {s t : Server} (taken : s.next persistent = some t) :
    Moved persistent s t := by
  cases pc : s.pc with
  | hello =>
    simp only [Server.next, pc, Option.some.injEq] at taken
    exact taken ▸ .hello pc
  | read =>
    cases pipe : s.requests with
    | nil => simp [Server.next, pc, pipe] at taken
    | cons wasKilled requests =>
      simp only [Server.next, pc, pipe] at taken
      split_ifs at taken with dead
      · obtain ⟨stopped, -⟩ := Bool.and_eq_true_iff.mp dead
        exact Option.some.inj taken ▸ .killed pc pipe stopped
      · exact Option.some.inj taken ▸ .asked pc pipe
  | reap =>
    simp only [Server.next, pc] at taken
    obtain ⟨none, rfl⟩ | ⟨pid, ending, childPid, process, rfl⟩ | ⟨pid, signal, untraced, -⟩ := Server.await_cases taken
    · exact .missing (.inl pc) none
    · exact .writtenOff pc childPid process
    · cases untraced
  | launch =>
    cases stopped : s.childStopped <;> cases childPid : s.childPid <;>
      simp only [Server.next, pc, stopped, childPid, Option.some.injEq, reduceCtorEq] at taken
    rw [← taken, ← childPid]
    exact .resumed pc childPid stopped
  | writePid =>
    cases childPid : s.childPid <;> simp only [Server.next, pc, childPid, Option.some.injEq, reduceCtorEq] at taken
    rw [← taken, ← childPid]
    exact .wrotePid pc childPid
  | wait =>
    simp only [Server.next, pc] at taken
    obtain ⟨none, rfl⟩ | ⟨pid, ending, childPid, process, rfl⟩ | ⟨pid, signal, mode, childPid, process, rfl⟩ :=
      Server.await_cases taken
    · exact .missing (.inr pc) none
    · simp only [wifstopped_ended, Bool.false_eq_true, if_false]
      exact .ended pc childPid process
    · simp only [wifstopped_stopped, if_true]
      exact .stopped mode pc childPid process
  | writeStatus status =>
    simp only [Server.next, pc, Option.some.injEq] at taken
    exact taken ▸ .wroteStatus pc
  | exited => simp [Server.next, pc] at taken
  | alone => simp [Server.next, pc] at taken

/-! ## One child at a time -/

/-- The one child of a server that forks only after it has waited for the last one. -/
inductive Child where
  | gone
  | busy (pid : Nat)
  | paused (pid : Nat)
  deriving DecidableEq, Repr

def Child.after : Child → Event → Option Child
  | .gone, .forked pid => some (.busy pid)
  | .paused old, .resumed pid => if pid = old then some (.busy pid) else none
  | .busy old, .reported pid (.ended _) => if pid = old then some .gone else none
  | .busy old, .reported pid (.stopped _) => if pid = old then some (.paused pid) else none
  | .paused old, .writtenOff pid (.ended _) => if pid = old then some .gone else none
  | _, _ => none

/-- The child after a log; `none` for a log in which a child is forked, resumed or waited for out of turn. -/
def follow (log : List Event) : Option Child := log.foldlM Child.after .gone

theorem follow_concat {log : List Event} {child : Child} (here : follow log = some child) (e : Event) :
    follow (log ++ [e]) = child.after e := by
  simp [follow, List.foldlM_append, show log.foldlM Child.after .gone = some child from here]

/-- The processes that are there when the server has that child. -/
def Child.Has (processes : Nat → Option Process) : Child → Prop
  | .gone => ∀ pid, processes pid = none
  | .busy pid | .paused pid => processes pid ≠ none ∧ ∀ other, other ≠ pid → processes other = none

/-- Between a child and the next: there is none, or one that has stopped and will be continued. -/
def Child.Rests (childStopped : Bool) (childPid : Option Nat) (child : Child) : Prop :=
  childStopped = false ∧ child = .gone ∨ childStopped = true ∧ ∃ pid, childPid = some pid ∧ child = .paused pid

/-- The child that goes with the variables of the server at each place of its loop. -/
def Child.Stands (childStopped : Bool) (childPid : Option Nat) (child : Child) : Pc → Prop
  | .hello => childStopped = false ∧ child = .gone
  | .read | .launch | .writeStatus _ => child.Rests childStopped childPid
  | .reap => childStopped = false ∧ ∃ pid, childPid = some pid ∧ child = .paused pid
  | .writePid | .wait => childStopped = false ∧ ∃ pid, childPid = some pid ∧ child = .busy pid
  | .exited | .alone => True

structure Supervised (s : Server) (child : Child) : Prop where
  follows : follow s.log = some child
  has : child.Has s.processes
  stands : child.Stands s.childStopped s.childPid s.pc

theorem supervised_init : Supervised .init .gone := ⟨rfl, fun _ => rfl, rfl, rfl⟩

/-- A child that changes is still the only one. -/
theorem Child.has_update (child : Child) {processes : Nat → Option Process} {pid : Nat} {process : Process}
    (has : child.Has processes) (there : processes pid ≠ none) :
    child.Has (Function.update processes pid (some process)) := by
  cases child with
  | gone => exact absurd (has pid) there
  | busy own | paused own =>
    obtain ⟨-, alone⟩ := has
    obtain rfl : pid = own := by
      by_contra other
      exact there (alone pid other)
    constructor
    · simp
    · intro other ne
      rw [Function.update_of_ne ne]
      exact alone other ne

/-- A child that has been waited for leaves none. -/
theorem Child.has_remove {processes : Nat → Option Process} {pid : Nat}
    (alone : ∀ other, other ≠ pid → processes other = none) : Child.gone.Has (Function.update processes pid none) := by
  intro other
  by_cases same : other = pid
  · simp [same]
  · rw [Function.update_of_ne same]
    exact alone other same

theorem Supervised.moved {persistent : Bool} {s t : Server} {child : Child} (here : Supervised s child)
    (moved : Moved persistent s t) : ∃ child, Supervised t child := by
  obtain ⟨follows, has, stands⟩ := here
  cases moved with
  | hello pc =>
    rw [pc] at stands
    exact ⟨child, follows, has, .inl stands⟩
  | killed pc _ stopped =>
    rw [pc, stopped] at stands
    obtain ⟨⟨⟩, -⟩ | ⟨-, paused⟩ := stands
    exact ⟨child, follows, has, rfl, paused⟩
  | asked pc =>
    rw [pc] at stands
    exact ⟨child, follows, has, stands⟩
  | missing pc none => exact ⟨child, follows, has, trivial⟩
  | writtenOff pc childPid process =>
    rw [pc, childPid] at stands
    obtain ⟨running, own, ⟨⟩, rfl⟩ := stands
    exact ⟨.gone, by simp [follow_concat follows, Child.after], Child.has_remove has.2, .inl ⟨running, rfl⟩⟩
  | @resumed pid pc childPid stopped =>
    rw [pc, childPid, stopped] at stands
    obtain ⟨⟨⟩, -⟩ | ⟨-, own, ⟨⟩, rfl⟩ := stands
    obtain ⟨process, there⟩ := Option.ne_none_iff_exists'.mp has.1
    refine ⟨.busy pid, by simp [follow_concat follows, Child.after], ?_, rfl, pid, childPid, rfl⟩
    rw [there, Option.map_some]
    exact Child.has_update (.busy pid) has has.1
  | wrotePid pc childPid =>
    rw [pc] at stands
    exact ⟨child, follows, has, stands⟩
  | ended pc childPid process =>
    rw [pc, childPid] at stands
    obtain ⟨running, own, ⟨⟩, rfl⟩ := stands
    exact ⟨.gone, by simp [follow_concat follows, Child.after], Child.has_remove has.2, .inl ⟨running, rfl⟩⟩
  | @stopped pid signal mode pc childPid process =>
    rw [pc, childPid] at stands
    obtain ⟨running, own, ⟨⟩, rfl⟩ := stands
    exact ⟨.paused pid, by simp [follow_concat follows, Child.after], Child.has_update (.paused pid) has has.1,
      .inr ⟨rfl, pid, childPid, rfl⟩⟩
  | wroteStatus pc =>
    rw [pc] at stands
    exact ⟨child, follows, has, stands⟩

theorem Supervised.forked {s t : Server} {child : Child} {pid : Nat} (here : Supervised s child)
    (taken : s.fork pid = some t) : Supervised t (.busy pid) := by
  obtain ⟨follows, has, stands⟩ := here
  unfold Server.fork at taken
  split_ifs at taken with guard
  obtain ⟨pc, stopped, -, -⟩ := guard
  obtain rfl := Option.some.inj taken
  rw [pc, stopped] at stands
  obtain ⟨-, rfl⟩ | ⟨⟨⟩, -⟩ := stands
  refine ⟨by simp [follow_concat follows, Child.after], ⟨by simp, ?_⟩, stopped, pid, rfl, rfl⟩
  exact fun other ne => (Function.update_of_ne ne _ _).trans (has other)

/-- After a failure the server ends; what it knows of its child stays as it is. -/
theorem Server.fail_cases {s t : Server} (taken : s.fail = some t) :
    s.pc = .hello ∧ t = { s with pc := .alone } ∨
      s.pc ≠ .hello ∧ s.pc ≠ .alone ∧ t = { s with pc := .exited } := by
  cases pc : s.pc with
  | hello => exact .inl ⟨rfl, by simpa [Server.fail, pc] using taken.symm⟩
  | launch =>
    simp only [Server.fail, pc] at taken
    split_ifs at taken
    exact .inr ⟨nofun, nofun, (Option.some.inj taken).symm⟩
  | read | writePid | writeStatus => exact .inr ⟨nofun, nofun, by simpa [Server.fail, pc] using taken.symm⟩
  | reap | wait | exited | alone => simp [Server.fail, pc] at taken

/-- A change of a child leaves everything but that child as it is. -/
theorem Server.child_eq {s t : Server} {pid : Nat} {change : Change} (taken : s.child pid change = some t) :
    ∃ process, s.processes pid ≠ none ∧ t = { s with processes := Function.update s.processes pid (some process) } := by
  obtain ⟨before, there, changed⟩ := Option.bind_eq_some_iff.mp taken
  obtain ⟨process, -, rfl⟩ := Option.map_eq_some_iff.mp changed
  exact ⟨process, by simp [there], rfl⟩

theorem supervised_step {persistent : Bool} {s t : Server} {a : Action} (here : ∃ child, Supervised s child)
    (taken : Steps persistent s a t) : ∃ child, Supervised t child := by
  obtain ⟨child, here⟩ := here
  cases a with
  | request wasKilled =>
    obtain rfl := Option.some.inj taken
    exact ⟨child, here.follows, here.has, here.stands⟩
  | server => exact here.moved (moved_of_next taken)
  | fork pid => exact ⟨_, here.forked taken⟩
  | fail =>
    obtain ⟨-, rfl⟩ | ⟨-, -, rfl⟩ := Server.fail_cases taken
    · exact ⟨child, here.follows, here.has, trivial⟩
    · exact ⟨child, here.follows, here.has, trivial⟩
  | child pid change =>
    obtain ⟨process, there, rfl⟩ := Server.child_eq taken
    exact ⟨child, here.follows, child.has_update here.has there, here.stands⟩

/-- The server looks after one child at a time. -/
structure OneChild (s : Server) : Prop where
  /-- a child is forked after the last one has been waited for, and resumed only when it has stopped; of the
      processes forked so far, at most the last one is left -/
  log : ∃ child, follow s.log = some child ∧ child.Has s.processes
  /-- neither `waitpid` fails: the variable is set, and the process is a child that has not been waited for -/
  awaited : s.pc = .reap ∨ s.pc = .wait → ∃ pid, s.childPid = some pid ∧ s.processes pid ≠ none
  /-- `SIGCONT` goes to such a process as well -/
  resumed : s.pc = .launch → s.childStopped = true → ∃ pid, s.childPid = some pid ∧ s.processes pid ≠ none
  forks : s.pc = .launch → s.childStopped = false → ∀ pid, s.processes pid = none

theorem Supervised.oneChild {s : Server} {child : Child} (here : Supervised s child) : OneChild s := by
  obtain ⟨follows, has, stands⟩ := here
  constructor
  · exact ⟨child, follows, has⟩
  · rintro (pc | pc) <;> rw [pc] at stands <;> obtain ⟨-, pid, childPid, rfl⟩ := stands
    · exact ⟨pid, childPid, has.1⟩
    · exact ⟨pid, childPid, has.1⟩
  · intro pc stopped
    rw [pc, stopped] at stands
    obtain ⟨⟨⟩, -⟩ | ⟨-, pid, childPid, rfl⟩ := stands
    exact ⟨pid, childPid, has.1⟩
  · intro pc stopped
    rw [pc, stopped] at stands
    obtain ⟨-, rfl⟩ | ⟨⟨⟩, -⟩ := stands
    exact has

/-- Whatever AFL asks for and whatever the children do. -/
theorem oneChild_of_run {persistent : Bool} {actions : List Action} {s : Server}
    (run : Run (Steps persistent) .init actions s) : OneChild s := by
  obtain ⟨child, here⟩ := run.invariant (P := fun s => ∃ child, Supervised s child)
    (fun _ _ _ => supervised_step) ⟨.gone, supervised_init⟩
  exact here.oneChild

/-- In persistent mode a child stops, and AFL kills it before it asks for the next run. -/
def killedSession : List Action :=
  [.server, .request 0, .server, .fork 7, .server, .child 7 (.stops 19), .server, .server,
    .child 7 (.ends (.signalled 9 false)), .request 1, .server]

theorem oneChild_killedSession : ∃ s, Run (Steps true) .init killedSession s ∧ s.pc = .reap ∧ OneChild s := by
  have reached : (killedSession.foldlM (step true) .init).map Server.pc = some .reap := by decide +kernel
  obtain ⟨s, steps, pc⟩ := Option.map_eq_some_iff.mp reached
  exact ⟨s, Run.of_foldlM steps, pc, oneChild_of_run (Run.of_foldlM steps)⟩

/-! ## What AFL is told -/

/-- A request that has been answered. -/
structure Round where
  /-- the stopped child that had been killed -/
  old : Option (Nat × Ending)
  /-- the child was forked for this request -/
  fresh : Bool
  pid : Nat
  status : Status
  deriving DecidableEq, Repr

def oldEvents : Option (Nat × Ending) → List Event
  | none => []
  | some (pid, ending) => [.writtenOff pid (.ended ending)]

def launchEvent (fresh : Bool) (pid : Nat) : Event := if fresh then .forked pid else .resumed pid

def Round.events (r : Round) : List Event :=
  oldEvents r.old ++ [launchEvent r.fresh r.pid, .reported r.pid r.status]

def Round.words (r : Round) : List Word := [.pid r.pid, .status r.status.encode]

/-- What has been done and said for the request in hand, at each place of the loop. -/
def Underway (childPid : Option Nat) (events : List Event) (words : List Word) (read : Nat) : Pc → Prop
  | .read => events = [] ∧ words = [] ∧ read = 0
  | .reap => events = [] ∧ words = [] ∧ read = 1
  | .launch => ∃ old, events = oldEvents old ∧ words = [] ∧ read = 1
  | .writePid => ∃ old fresh pid, childPid = some pid ∧ events = oldEvents old ++ [launchEvent fresh pid] ∧
      words = [] ∧ read = 1
  | .wait => ∃ old fresh pid, childPid = some pid ∧ events = oldEvents old ++ [launchEvent fresh pid] ∧
      words = [.pid pid] ∧ read = 1
  | .writeStatus status => ∃ r : Round, events = r.events ∧ words = [.pid r.pid] ∧ status = r.status.encode ∧ read = 1
  | .exited => (words = [] ∨ ∃ fresh pid, words = [.pid pid] ∧ launchEvent fresh pid ∈ events) ∧ read ≤ 1
  | .hello | .alone => False

/-- The requests answered so far, and the one in hand. -/
def Told (s : Server) (rounds : List Round) : Prop :=
  (s.pc = .hello ∨ s.pc = .alone) ∧ rounds = [] ∧ s.log = [] ∧ s.words = [] ∧ s.read = 0 ∨
    ∃ (events : List Event) (words : List Word) (read : Nat),
      s.log = rounds.flatMap Round.events ++ events ∧ s.words = .hello :: (rounds.flatMap Round.words ++ words) ∧
        s.read = rounds.length + read ∧ Underway s.childPid events words read s.pc

theorem told_init : Told .init [] := .inl ⟨.inl rfl, rfl, rfl, rfl, rfl⟩

/-- Where the server ends, AFL has at most the PID of a child for the request in hand. -/
theorem Underway.exit {childPid : Option Nat} {events : List Event} {words : List Word} {read : Nat} {pc : Pc}
    (underway : Underway childPid events words read pc) : Underway childPid events words read .exited := by
  cases pc with
  | hello | alone => exact underway.elim
  | exited => exact underway
  | read | reap =>
    obtain ⟨-, rfl, rfl⟩ := underway
    exact ⟨.inl rfl, by decide⟩
  | launch =>
    obtain ⟨-, -, rfl, rfl⟩ := underway
    exact ⟨.inl rfl, by decide⟩
  | writePid =>
    obtain ⟨-, -, -, -, -, rfl, rfl⟩ := underway
    exact ⟨.inl rfl, by decide⟩
  | wait =>
    obtain ⟨old, fresh, pid, -, rfl, rfl, rfl⟩ := underway
    exact ⟨.inr ⟨fresh, pid, rfl, by simp⟩, by decide⟩
  | writeStatus =>
    obtain ⟨r, rfl, rfl, -, rfl⟩ := underway
    exact ⟨.inr ⟨r.fresh, r.pid, rfl, by simp [Round.events]⟩, by decide⟩

theorem Told.moved {persistent : Bool} {s t : Server} {rounds : List Round} (told : Told s rounds)
    (moved : Moved persistent s t) : ∃ rounds, Told t rounds := by
  obtain ⟨first, rfl, log, words, read⟩ | ⟨events, words, read, log, spoken, count, underway⟩ := told
  · -- of the two places outside the loop, the server has a step from the first only
    cases moved with
    | hello pc => exact ⟨[], .inr ⟨[], [], 0, by simp [log], by simp [words], by simp [read], rfl, rfl, rfl⟩⟩
    | killed pc | asked pc | writtenOff pc | resumed pc | wrotePid pc | ended pc | stopped _ pc | wroteStatus pc =>
      simp [pc] at first
    | missing pc => rcases pc with pc | pc <;> simp [pc] at first
  · cases moved with
    | hello pc =>
      rw [pc] at underway
      exact underway.elim
    | killed pc =>
      rw [pc] at underway
      obtain ⟨rfl, rfl, rfl⟩ := underway
      exact ⟨rounds, .inr ⟨[], [], 1, log, spoken, by rw [count], rfl, rfl, rfl⟩⟩
    | asked pc =>
      rw [pc] at underway
      obtain ⟨rfl, rfl, rfl⟩ := underway
      exact ⟨rounds, .inr ⟨[], [], 1, log, spoken, by rw [count], none, rfl, rfl, rfl⟩⟩
    | missing pc none => exact ⟨rounds, .inr ⟨events, words, read, log, spoken, count, underway.exit⟩⟩
    | @writtenOff pid ending pc childPid process =>
      rw [pc] at underway
      obtain ⟨rfl, rfl, rfl⟩ := underway
      exact ⟨rounds, .inr ⟨[.writtenOff pid (.ended ending)], [], 1, by simp [log], spoken, count, some (pid, ending), rfl,
        rfl, rfl⟩⟩
    | @resumed pid pc childPid stopped =>
      rw [pc] at underway
      obtain ⟨old, rfl, rfl, rfl⟩ := underway
      exact ⟨rounds, .inr ⟨_, [], 1, by simp [log, launchEvent], spoken, count, old, false, pid, childPid, rfl, rfl,
        rfl⟩⟩
    | @wrotePid pid pc childPid =>
      rw [pc, childPid] at underway
      obtain ⟨old, fresh, own, ⟨⟩, rfl, rfl, rfl⟩ := underway
      exact ⟨rounds, .inr ⟨_, [.pid pid], 1, log, by simp [spoken], count, old, fresh, pid, childPid, rfl, rfl, rfl⟩⟩
    | @ended pid ending pc childPid process =>
      rw [pc, childPid] at underway
      obtain ⟨old, fresh, own, ⟨⟩, rfl, rfl, rfl⟩ := underway
      exact ⟨rounds, .inr ⟨_, [.pid pid], 1, by simp [log, Round.events], spoken, count,
        ⟨old, fresh, pid, .ended ending⟩, rfl, rfl, rfl, rfl⟩⟩
    | @stopped pid signal mode pc childPid process =>
      rw [pc, childPid] at underway
      obtain ⟨old, fresh, own, ⟨⟩, rfl, rfl, rfl⟩ := underway
      exact ⟨rounds, .inr ⟨_, [.pid pid], 1, by simp [log, Round.events], spoken, count,
        ⟨old, fresh, pid, .stopped signal⟩, rfl, rfl, rfl, rfl⟩⟩
    | wroteStatus pc =>
      rw [pc] at underway
      obtain ⟨r, rfl, rfl, rfl, rfl⟩ := underway
      exact ⟨rounds ++ [r], .inr ⟨[], [], 0, by simp [log], by simp [spoken, Round.words], by simp [count], rfl, rfl,
        rfl⟩⟩

theorem told_step {persistent : Bool} {s t : Server} {a : Action} (told : ∃ rounds, Told s rounds)
    (taken : Steps persistent s a t) : ∃ rounds, Told t rounds := by
  obtain ⟨rounds, told⟩ := told
  cases a with
  | request wasKilled =>
    obtain rfl := Option.some.inj taken
    exact ⟨rounds, told⟩
  | server => exact told.moved (moved_of_next taken)
  | fork pid =>
    simp only [Steps, step, Server.fork] at taken
    split_ifs at taken with guard
    obtain ⟨pc, -⟩ := guard
    obtain rfl := Option.some.inj taken
    obtain ⟨first, -⟩ | ⟨events, words, read, log, spoken, count, underway⟩ := told
    · simp [pc] at first
    · rw [pc] at underway
      obtain ⟨old, rfl, rfl, rfl⟩ := underway
      exact ⟨rounds, .inr ⟨_, [], 1, by simp [log, launchEvent], spoken, count, old, true, pid, rfl, rfl, rfl, rfl⟩⟩
  | fail =>
    obtain ⟨pc, rfl⟩ | ⟨notHello, notAlone, rfl⟩ := Server.fail_cases taken
    · obtain ⟨-, nothing⟩ | ⟨events, words, read, log, spoken, count, underway⟩ := told
      · exact ⟨rounds, .inl ⟨.inr rfl, nothing⟩⟩
      · rw [pc] at underway
        exact underway.elim
    · obtain ⟨first, -⟩ | ⟨events, words, read, log, spoken, count, underway⟩ := told
      · simp [notHello, notAlone] at first
      · exact ⟨rounds, .inr ⟨events, words, read, log, spoken, count, underway.exit⟩⟩
  | child pid change =>
    obtain ⟨process, there, rfl⟩ := Server.child_eq taken
    exact ⟨rounds, told⟩

/-! ### What AFL has asked for -/

def Action.request? : Action → Option UInt32
  | .request wasKilled => some wasKilled
  | _ => none

/-- The words that AFL has written to the control pipe. -/
def requestsOf (actions : List Action) : List UInt32 := actions.filterMap Action.request?

/-- No word is lost: from `s` to `t`, the words in the pipe and those written are the ones that have been read and
    the ones in the pipe. -/
def Reads (s : Server) (written : List UInt32) (t : Server) : Prop :=
  ∃ taken, s.requests ++ written = taken ++ t.requests ∧ t.read = s.read + taken.length

theorem Reads.none {s t : Server} (requests : t.requests = s.requests) (read : t.read = s.read) : Reads s [] t :=
  ⟨[], by simp [requests], by simp [read]⟩

theorem reads_moved {persistent : Bool} {s t : Server} (moved : Moved persistent s t) : Reads s [] t := by
  cases moved with
  | @killed wasKilled _ _ pipe | @asked wasKilled _ _ pipe => exact ⟨[wasKilled], by simp [pipe], rfl⟩
  | hello | missing | writtenOff | resumed | wrotePid | ended | stopped | wroteStatus => exact .none rfl rfl

theorem reads_step {persistent : Bool} {s t : Server} {a : Action} (taken : Steps persistent s a t) :
    Reads s (requestsOf [a]) t := by
  cases a with
  | request wasKilled =>
    obtain rfl := Option.some.inj taken
    exact ⟨[], rfl, rfl⟩
  | server => exact reads_moved (moved_of_next taken)
  | fork pid =>
    simp only [Steps, step, Server.fork] at taken
    split_ifs at taken
    obtain rfl := Option.some.inj taken
    exact .none rfl rfl
  | fail =>
    obtain ⟨-, rfl⟩ | ⟨-, -, rfl⟩ := Server.fail_cases taken
    · exact .none rfl rfl
    · exact .none rfl rfl
  | child pid change =>
    obtain ⟨process, there, rfl⟩ := Server.child_eq taken
    exact .none rfl rfl

theorem reads_of_run {persistent : Bool} {actions : List Action} {s t : Server}
    (run : Run (Steps persistent) s actions t) : Reads s (requestsOf actions) t := by
  induction run with
  | nil s => exact .none rfl rfl
  | @cons s t u a actions first _ ih =>
    obtain ⟨taken, pipe, read⟩ := reads_step first
    obtain ⟨taken', pipe', read'⟩ := ih
    have split : requestsOf (a :: actions) = requestsOf [a] ++ requestsOf actions := List.filterMap_append (l := [a])
    refine ⟨taken ++ taken', ?_, by rw [read', read, List.length_append, Nat.add_assoc]⟩
    rw [split, ← List.append_assoc, pipe, List.append_assoc, pipe', List.append_assoc]

/-- A child is forked, ends and is reported. -/
def Event.plain : Event → Bool
  | .forked _ => true
  | .reported _ (.ended _) => true
  | _ => false

/-- Without persistent mode no stop is reported, so no child is ever resumed or written off. -/
structure Plain (s : Server) : Prop where
  stopped : s.childStopped = false
  log : ∀ e ∈ s.log, e.plain = true
  pc : s.pc ≠ .reap

theorem plain_step {s t : Server} {a : Action} (plain : Plain s) (taken : Steps false s a t) : Plain t := by
  obtain ⟨stopped, log, pc⟩ := plain
  cases a with
  | request wasKilled =>
    obtain rfl := Option.some.inj taken
    exact ⟨stopped, log, pc⟩
  | server =>
    cases moved_of_next taken with
    | killed _ _ was | resumed _ _ was => simp [stopped] at was
    | writtenOff here => exact absurd here pc
    | stopped mode => cases mode
    | ended => exact ⟨stopped, List.forall_mem_append.mpr ⟨log, by simp [Event.plain]⟩, nofun⟩
    | hello | asked | missing | wrotePid | wroteStatus => exact ⟨stopped, log, nofun⟩
  | fork pid =>
    simp only [Steps, step, Server.fork] at taken
    split_ifs at taken
    obtain rfl := Option.some.inj taken
    exact ⟨stopped, List.forall_mem_append.mpr ⟨log, by simp [Event.plain]⟩, nofun⟩
  | fail =>
    obtain ⟨-, rfl⟩ | ⟨-, -, rfl⟩ := Server.fail_cases taken
    · exact ⟨stopped, log, nofun⟩
    · exact ⟨stopped, log, nofun⟩
  | child pid change =>
    obtain ⟨process, there, rfl⟩ := Server.child_eq taken
    exact ⟨stopped, log, pc⟩

/-- The round is a child that was forked for the request and ended. -/
def Round.Plain (r : Round) : Prop := r.old = none ∧ r.fresh = true ∧ ∃ ending, r.status = .ended ending

theorem Round.plain_of_events {r : Round} (plain : ∀ e ∈ r.events, e.plain = true) : r.Plain := by
  obtain ⟨old, fresh, pid, status⟩ := r
  cases old with
  | some => simp [Round.events, oldEvents, Event.plain] at plain
  | none =>
    cases fresh with
    | false => simp [Round.events, launchEvent, oldEvents, Event.plain] at plain
    | true =>
      cases status with
      | stopped => simp [Round.events, launchEvent, oldEvents, Event.plain] at plain
      | ended ending => exact ⟨rfl, rfl, ending, rfl⟩

/-- Every word of AFL is answered in its turn by a PID and the status of that process.  Without persistent mode
    the process was forked for the request and has ended. -/
structure Answered (persistent : Bool) (asked : List UInt32) (s : Server) (rounds : List Round) : Prop where
  /-- what AFL has written has been read, in order, or is in the pipe -/
  asked : ∃ taken, asked = taken ++ s.requests ∧ s.read = taken.length
  /-- of what has been read, at most the last word is not answered yet -/
  told : Told s rounds
  plain : persistent = false → ∀ r ∈ rounds, r.Plain

theorem answered_of_run {persistent : Bool} {actions : List Action} {s : Server}
    (run : Run (Steps persistent) .init actions s) : ∃ rounds, Answered persistent (requestsOf actions) s rounds := by
  obtain ⟨rounds, told⟩ := run.invariant (P := fun s => ∃ rounds, Told s rounds) (fun _ _ _ => told_step) ⟨[], told_init⟩
  obtain ⟨taken, asked, read⟩ := reads_of_run run
  refine ⟨rounds, ⟨taken, asked, read.trans (Nat.zero_add _)⟩, told, ?_⟩
  rintro rfl r member
  have plain : Plain s := run.invariant (P := Plain) (fun _ _ _ => plain_step) ⟨rfl, by simp [Server.init], nofun⟩
  refine r.plain_of_events fun e inside => plain.log e ?_
  obtain ⟨-, rfl, -⟩ | ⟨events, words, read, log, -⟩ := told
  · cases member
  · rw [log]
    exact List.mem_append_left _ (List.mem_flatMap.mpr ⟨r, member, inside⟩)

/-- The child is written off and another one runs for the second request. -/
def replacedSession : List Action :=
  killedSession ++ [.server, .fork 8, .server, .child 8 (.ends (.exited 0)), .server, .server]

theorem answered_replacedSession : ∃ s, Run (Steps true) .init replacedSession s ∧ s.pc = .read ∧ s.read = 2 ∧
    ∃ rounds, Answered true [0, 1] s rounds := by
  have reached : (replacedSession.foldlM (step true) .init).map (fun s => (s.pc, s.read)) = some (.read, 2) := by
    decide +kernel
  obtain ⟨s, steps, found⟩ := Option.map_eq_some_iff.mp reached
  obtain ⟨pc, read⟩ := Prod.mk.inj found
  exact ⟨s, Run.of_foldlM steps, pc, read, answered_of_run (Run.of_foldlM steps)⟩

end DevFuzz.Proxy.ForkServer
