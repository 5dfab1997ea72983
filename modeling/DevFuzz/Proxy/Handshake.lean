import DevFuzz.Lib.Bytes
import DevFuzz.Lib.Run

/-! # The handshake between the AFL proxy and its client

`main` of `proxy/ap.cpp` on one side, `real_ap_init`, `ap_log_pc`,
`ap_reattach_pt` and `ap_exit` of `aplib/aplib.cpp` on the other, over the shared
memory segments of `shm.h`.  Every access to a segment, to a semaphore or to the
name of the segment is a step of its own, and the two sides take their steps in
any order.

Each AP process creates a segment of its own; the segments are numbered by the
processes.  Of a segment the ghost fields `sent` and `taken` keep the messages
that were posted on `semw` and the messages the AP read.
-/

namespace DevFuzz.Proxy

open DevFuzz.Lib DevFuzz.Lib.Bytes

/-! ## Messages and segments -/

/-- What the client sends with an acknowledgement: a covered PC, or the thread to trace. -/
inductive Payload where
  | cov (rip : UInt64)
  | pt (tid : UInt32)
  deriving DecidableEq, Repr

inductive Message where
  | data (payload : Payload)
  | exit
  deriving DecidableEq, Repr

def Payload.type : Payload → UInt8
  | .cov _ => 0x01
  | .pt _ => 0x02

/-- The `memcpy` into `sm->data`. -/
def Payload.write (data : Memory) : Payload → Memory
  | .cov rip => storeLE data 0 8 rip.toNat
  | .pt tid => storeLE data 0 4 tid.toNat

/-- What the AP makes of `sm->type` and `sm->data`; `none` is the `default` of its switch. -/
def Message.read (type : UInt8) (data : Memory) : Option Message :=
  if type = 0x01 then some (.data (.cov (UInt64.ofNat (loadLE data 0 8))))
  else if type = 0x02 then some (.data (.pt (UInt32.ofNat (loadLE data 0 4))))
  else if type = 0xff then some .exit
  else none

theorem Message.read_write (payload : Payload) (data : Memory) :
    Message.read payload.type (payload.write data) = some (.data payload) := by
  cases payload <;> simp [Message.read, Payload.type, Payload.write, loadLE_storeLE]

/-- `struct XXX`, without the fields for interrupts and direct requests. -/
structure Segment where
  semr : Nat
  semw : Nat
  path : List Char
  type : UInt8
  data : Memory
  ready : Bool
  /-- the semaphores that `sem_init` has been called on -/
  semrInit : Bool
  semwInit : Bool
  sent : List Message
  taken : List Message

/-- A segment after `memset`. -/
def Segment.zero : Segment := ⟨0, 0, [], 0, fun _ => 0, false, false, false, [], []⟩

/-! ## The two sides -/

/-- Where `main` of the AP stands; `exited` also stands for a fork server that has not started
    the next process. -/
inductive ApPc where
  | exited
  | created      -- `memset` next
  | zeroed       -- `rename` next
  | renamed      -- `sem_init(&sm->semr)` next
  | semrInit     -- `sem_init(&sm->semw)` next
  | semwInit     -- `strncpy(sm->path, ...)` next
  | pathSet      -- `sm->ready = 1` next
  | waiting      -- at `sem_wait(&sm->semw)`
  | received     -- `switch (sm->type)` next
  | handling (type : UInt8)
  | posting (run : Bool)
  | closing
  | unlinking
  | aborted
  deriving DecidableEq, Repr

/-- Who waits for the acknowledgement: `real_ap_init`, called by itself or by `ap_log_pc` for a
    PC, or one of the other entry points. -/
inductive Return where
  | init (next : Option UInt64)
  | call
  deriving DecidableEq, Repr

inductive ClientPc where
  | idle
  | entered (next : Option UInt64)        -- `real_ap_init`, `if (sm)` next
  | connect (next : Option UInt64)        -- `again:`
  | check (next : Option UInt64)          -- `if (!sm->ready)` next
  | send (payload : Payload) (ret : Return)   -- `sm->type = ...` next
  | fill (payload : Payload) (ret : Return)   -- `memcpy(sm->data, ...)` next
  | post (payload : Payload) (ret : Return)   -- `sem_post(&sm->semw)` next
  | wait (ret : Return)                    -- at `sem_wait(&sm->semr)`
  | returned (next : Option UInt64)       -- `real_ap_init` has returned
  | exitType                              -- `sm->type = 0xff` next
  | exitReady                             -- `sm->ready = 0` next
  | exitPost                              -- `sem_post(&sm->semw)` next
  | exitClose                             -- `shm->close()` next
  | aborted                               -- `assert(sm)` has failed
  deriving DecidableEq, Repr

structure State where
  segments : Nat → Segment
  /-- the segment that the name in `/dev/shm` stands for -/
  name : Option Nat
  /-- AP processes started so far; the last one owns the segment `started - 1` -/
  started : Nat
  ap : ApPc
  client : ClientPc
  /-- the segment `sm` points to -/
  sm : Option Nat

/-- What the two programs are started with. -/
structure Env where
  /-- `argv[1]` of each AP process -/
  path : Nat → List Char
  path_ne_nil : ∀ k, path k ≠ []
  /-- `isEnabled` -/
  enabled : Bool
  /-- `gettid()` of the client -/
  tid : UInt32

def State.init : State := ⟨fun _ => .zero, none, 0, .exited, .idle, none⟩

/-- Change one segment. -/
def State.update (s : State) (k : Nat) (f : Segment → Segment) : State :=
  { s with segments := fun j => if j = k then f (s.segments j) else s.segments j }

@[simp] theorem State.update_self (s : State) (k : Nat) (f : Segment → Segment) :
    (s.update k f).segments k = f (s.segments k) := by
  simp [State.update]

theorem State.update_of_ne (s : State) {j k : Nat} (f : Segment → Segment) (other : j ≠ k) :
    (s.update k f).segments j = s.segments j := by
  simp [State.update, other]

/-! ## Steps -/

/-- The path as `strncpy(sm->path, argv[1], 128)` leaves it. -/
def Env.stored (env : Env) (k : Nat) : List Char := (env.path k).take 128

/-- The next step of the running AP; `none` when there is none or it is blocked. -/
def apStep (env : Env) (s : State) : Option State :=
  let k := s.started - 1
  let segment := s.segments k
  match s.ap with
  | .exited => none
  | .created => some { s.update k fun _ => .zero with ap := .zeroed }
  | .zeroed => some { s with name := some k, ap := .renamed }
  | .renamed => some { s.update k fun seg => { seg with semr := 0, semrInit := true } with ap := .semrInit }
  | .semrInit => some { s.update k fun seg => { seg with semw := 0, semwInit := true } with ap := .semwInit }
  | .semwInit => some { s.update k fun seg => { seg with path := env.stored k } with ap := .pathSet }
  | .pathSet => some { s.update k fun seg => { seg with ready := true } with ap := .waiting }
  | .waiting =>
    if segment.semw = 0 then none
    else some { s.update k fun seg => { seg with semw := seg.semw - 1 } with ap := .received }
  | .received => some { s with ap := .handling segment.type }
  | .handling type =>
    match Message.read type segment.data with
    | some m =>
      some { s.update k fun seg => { seg with taken := seg.taken ++ [m] } with ap := .posting (m ≠ .exit) }
    | none => some { s with ap := .aborted }
  | .posting run =>
    -- the message is acknowledged also when it was the last one
    some { s.update k fun seg => { seg with semr := seg.semr + 1 } with
      ap := if run then .waiting else .closing }
  | .closing => some { s with ap := .unlinking }
  | .unlinking => some { s with name := none, ap := .exited }
  | .aborted => none

/-- The fork server starts the next AP, which creates its segment under the temporary name. -/
def apStart (s : State) : Option State :=
  if s.ap = .exited then some { s with started := s.started + 1, ap := .created } else none

/-- The entry points of the library. -/
inductive Call where
  | apInit
  | realApInit
  | apLogPc (rip : UInt64)
  | apReattachPt
  | apExit
  deriving DecidableEq, Repr

def call (env : Env) (s : State) (c : Call) : Option State :=
  if s.client = .idle then
    match c with
    | .realApInit => some { s with client := .entered none }
    | .apInit => some { s with client := if env.enabled then .entered none else .idle }
    | .apLogPc rip =>
      if s.sm.isSome then some { s with client := .send (.cov rip) .call }
      else some { s with client := if env.enabled then .entered (some rip) else .idle }
    | .apReattachPt =>
      if s.sm.isSome then some { s with client := .send (.pt env.tid) .call }
      else some { s with client := .aborted }
    -- without a segment `ap_exit` does nothing
    | .apExit => some { s with client := if s.sm.isSome then .exitType else .idle }
  else none

/-- A step of the client that uses the segment `sm` points to. -/
def clientOn (env : Env) (s : State) (k : Nat) : Option State :=
  match s.client with
  | .check next =>
    some { s with
      client := if (s.segments k).ready then .send (.pt env.tid) (.init next) else .connect next }
  | .send payload ret =>
    some { s.update k fun seg => { seg with type := payload.type } with client := .fill payload ret }
  | .fill payload ret =>
    some { s.update k fun seg => { seg with data := payload.write seg.data } with
      client := .post payload ret }
  | .post payload ret =>
    some { s.update k fun seg =>
        { seg with semw := seg.semw + 1, sent := seg.sent ++ [.data payload] } with client := .wait ret }
  | .wait ret =>
    if (s.segments k).semr = 0 then none
    else some { s.update k fun seg => { seg with semr := seg.semr - 1 } with
      client := match ret with
        | .init next => .returned next
        | .call => .idle }
  | .exitType => some { s.update k fun seg => { seg with type := 0xff } with client := .exitReady }
  | .exitReady => some { s.update k fun seg => { seg with ready := false } with client := .exitPost }
  | .exitPost =>
    some { s.update k fun seg => { seg with semw := seg.semw + 1, sent := seg.sent ++ [.exit] } with
      client := .exitClose }
  | _ => none

/-- The next step of the client inside a call. -/
def clientStep (env : Env) (s : State) : Option State :=
  match s.client with
  | .idle => none
  | .aborted => none
  | .entered next =>
    some { s with client := if s.sm.isSome then .returned next else .connect next }
  | .connect next =>
    -- `shm->open()` fails while the name does not exist, and is tried again
    match s.name with
    | some k => some { s with client := .check next, sm := some k }
    | none => some s
  | .returned next =>
    match next with
    | some rip => some { s with client := .send (.cov rip) .call }
    | none => some { s with client := .idle }
  | .exitClose => some { s with client := .idle, sm := none }
  | _ => s.sm.bind (clientOn env s)

inductive Action where
  | start
  | ap
  | call (c : Call)
  | client
  deriving DecidableEq, Repr

def step (env : Env) (s : State) : Action → Option State
  | .start => apStart s
  | .ap => apStep env s
  | .call c => call env s c
  | .client => clientStep env s

/-- Any interleaving of the fork server, the AP and the client. -/
def Steps (env : Env) (s : State) (a : Action) (t : State) : Prop := step env s a = some t

end DevFuzz.Proxy
