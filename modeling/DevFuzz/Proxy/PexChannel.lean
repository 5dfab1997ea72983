import DevFuzz.Lib.Bytes
import DevFuzz.Lib.Layout
import DevFuzz.Lib.Run
import DevFuzz.Proxy.Handshake

/-! # Coverage messages of PeX

`PeX::slotExecuteBlockStart` and `PeX::slotOnStateKill` of `pex/PeX.cpp` send their
messages through the segment that `main` of `proxy/ap.cpp` reads.  Each program declares
`struct XXX` for itself; a segment is a string of bytes with the semaphores at the offsets
of their fields.

Both sides begin by waiting for the other one, and they do not agree on where the type of
a message is: `reliable_iff`.  The AP is the one of the handshake with `aplib`
(`apStep_views`, `apStep_blocked`).
-/

namespace DevFuzz.Proxy.PexChannel

open DevFuzz.Lib DevFuzz.Lib.Bytes DevFuzz.Lib.Layout

/-! ## The two declarations -/

inductive FieldName where
  | semr | semw | semIrq | path | type | data | irqAssert | ready
  deriving DecidableEq, Repr

/-- `struct XXX` of `ap.cpp`.  The union has the size of `data` and the alignment of `rwreq`. -/
def apStruct : List (Member FieldName) :=
  [⟨.semr, 32, 8⟩, ⟨.semw, 32, 8⟩, ⟨.semIrq, 32, 8⟩, ⟨.path, 128, 1⟩, ⟨.type, 1, 1⟩, ⟨.data, 128, 8⟩,
    ⟨.irqAssert, 1, 1⟩, ⟨.ready, 1, 1⟩]

/-- `struct XXX` of `PeX.h`. -/
def pexStruct : List (Member FieldName) :=
  [⟨.semr, 32, 8⟩, ⟨.semw, 32, 8⟩, ⟨.path, 128, 1⟩, ⟨.type, 1, 1⟩, ⟨.data, 128, 1⟩]

example : [FieldName.semr, .semw, .path, .type, .data].map (offsetOf apStruct) = [0, 32, 96, 224, 232] := by decide

example : [FieldName.semr, .semw, .path, .type, .data].map (offsetOf pexStruct) = [0, 32, 64, 192, 193] := by decide

/-! ## The segment -/

/-- The values of the semaphores by their offsets, and the bytes. -/
structure Segment where
  sems : Nat → Nat
  bytes : Memory

def Segment.post (segment : Segment) (sem : Nat) : Segment :=
  { segment with sems := Function.update segment.sems sem (segment.sems sem + 1) }

/-- `sem_wait`, which blocks on zero. -/
def Segment.wait (segment : Segment) (sem : Nat) : Option Segment :=
  if segment.sems sem = 0 then none
  else some { segment with sems := Function.update segment.sems sem (segment.sems sem - 1) }

/-! ## PeX -/

/-- A block that is executed, or a state that is killed. -/
inductive Message where
  | cov (pc : UInt64)
  | kill
  deriving DecidableEq, Repr

def Message.type : Message → UInt8
  | .cov _ => 0x01
  | .kill => 0xff

/-- Where PeX stands, with the messages still to be sent. -/
inductive PexPc where
  | idle (rest : List Message)
  | wait (m : Message) (rest : List Message)     -- at `sem_wait(&sm->semr)`
  | setType (m : Message) (rest : List Message)  -- `sm->type = ...` next
  | fill (m : Message) (rest : List Message)     -- `memcpy(sm->data, ...)` next
  | post (m : Message) (rest : List Message)     -- `sem_post(&sm->semw)` next

/-! ## The AP -/

inductive ApPc where
  | waiting      -- at `sem_wait(&sm->semw)`
  | received     -- `switch (sm->type)` next
  | handling (type : UInt8)
  | posting (run : Bool)
  | exited
  | aborted      -- `unreachable`
  deriving DecidableEq, Repr

structure State where
  segment : Segment
  pex : PexPc
  ap : ApPc
  /-- the messages that PeX has stored -/
  stored : List Message
  /-- the types and addresses that the AP has found -/
  handled : List (UInt8 × UInt64)

/-- The segment as the AP leaves it before its loop: zeroed, with the path and `ready`.  The code
    initialises both semaphores with 0; `semr` is a parameter here. -/
def initial (semr : Nat) (path : Memory) (messages : List Message) : State where
  segment :=
    { sems := Function.update (fun _ => 0) (offsetOf apStruct .semr) semr
      bytes := storeLE (copyInto (fun _ => 0) (offsetOf apStruct .path) 128 path) (offsetOf apStruct .ready) 1 1 }
  pex := .idle messages
  ap := .waiting
  stored := []
  handled := []

def pexStep (s : State) : Option State :=
  match s.pex with
  | .idle [] => none
  | .idle (m :: rest) => some { s with pex := .wait m rest }
  | .wait m rest =>
    (s.segment.wait (offsetOf pexStruct .semr)).map fun segment => { s with segment, pex := .setType m rest }
  | .setType m rest =>
    some { s with
      segment := { s.segment with bytes := storeLE s.segment.bytes (offsetOf pexStruct .type) 1 m.type.toNat }
      pex := .fill m rest }
  | .fill m rest =>
    match m with
    | .cov pc => some { s with
        segment := { s.segment with bytes := storeLE s.segment.bytes (offsetOf pexStruct .data) 8 pc.toNat }
        pex := .post m rest }
    | .kill => some { s with pex := .post m rest }
  | .post m rest =>
    some { s with
      segment := s.segment.post (offsetOf pexStruct .semw), pex := .idle rest, stored := s.stored ++ [m] }

def apStep (s : State) : Option State :=
  match s.ap with
  | .waiting =>
    (s.segment.wait (offsetOf apStruct .semw)).map fun segment => { s with segment, ap := .received }
  | .received => some { s with ap := .handling (s.segment.bytes (offsetOf apStruct .type)) }
  | .handling type =>
    let addr := UInt64.ofNat (loadLE s.segment.bytes (offsetOf apStruct .data) 8)
    some { s with
      handled := s.handled ++ [(type, addr)]
      ap := if type = 1 ∨ type = 2 then .posting true else if type = 0xff then .posting false else .aborted }
  | .posting run =>
    some { s with
      segment := s.segment.post (offsetOf apStruct .semr), ap := if run then .waiting else .exited }
  | .exited => none
  | .aborted => none

inductive Side where
  | pex
  | ap
  deriving DecidableEq, Repr

def step (s : State) : Side → Option State
  | .pex => pexStep s
  | .ap => apStep s

/-! ## The AP of the handshake

The loop of `main` is the one that talks to `aplib` as well.  `Proxy.apStep` has it with the fields of a segment
in place of its bytes. -/

def ApPc.loop : ApPc → Proxy.ApPc
  | .waiting => .waiting
  | .received => .received
  | .handling type => .handling type
  | .posting run => .posting run
  | .exited => .closing
  | .aborted => .aborted

/-- The message that the AP makes of a type and the first eight bytes of the data. -/
def found (entry : UInt8 × UInt64) : Option Proxy.Message :=
  if entry.1 = 0x01 then some (.data (.cov entry.2))
  else if entry.1 = 0x02 then some (.data (.pt (UInt32.ofNat entry.2.toNat)))
  else if entry.1 = 0xff then some .exit
  else none

/-- A segment with the fields that the bytes have at the offsets of `ap.cpp`, and the messages found so far. -/
structure Shows (segment : Segment) (handled : List (UInt8 × UInt64)) (seg : Proxy.Segment) : Prop where
  semr : seg.semr = segment.sems (offsetOf apStruct .semr)
  semw : seg.semw = segment.sems (offsetOf apStruct .semw)
  type : seg.type = segment.bytes (offsetOf apStruct .type)
  data : ∀ i < 128, seg.data i = segment.bytes (offsetOf apStruct .data + i)
  taken : seg.taken = handled.filterMap found

/-- The AP stands at the same place, and its segment is shown. -/
structure Views (s : State) (h : Proxy.State) : Prop where
  ap : h.ap = s.ap.loop
  own : Shows s.segment s.handled (h.segments (h.started - 1))

/-- The fields of the data are words of its first eight bytes. -/
theorem read_eq_found (type : UInt8) {data bytes : Memory} (start : Nat)
    (same : ∀ i < 8, data i = bytes (start + i)) :
    Proxy.Message.read type data = found (type, UInt64.ofNat (loadLE bytes start 8)) := by
  have loads : ∀ width ≤ 8, loadLE data 0 width = loadLE bytes start width := by
    intro width le
    have each : ∀ i ∈ List.range width, data (0 + i) = bytes (start + i) := by
      intro i member
      rw [Nat.zero_add]
      exact same i (Nat.lt_of_lt_of_le (List.mem_range.mp member) le)
    rw [loadLE, loadLE, window, window, List.map_congr_left each]
  have low : UInt32.ofNat (loadLE bytes start 4) = UInt32.ofNat (UInt64.ofNat (loadLE bytes start 8)).toNat := by
    have exact : (UInt64.ofNat (loadLE bytes start 8)).toNat = loadLE bytes start 8 :=
      UInt64.toNat_ofNat_of_lt' (loadLE_lt bytes start 8)
    have half : loadLE bytes start 4 = loadLE bytes start 8 / 256 ^ 0 % 256 ^ 4 := by
      refine loadLE_of_bytes fun i inside => ?_
      rw [Nat.zero_add, byteOf_loadLE bytes start (by omega)]
    rw [exact, half, pow_zero, Nat.div_one, ← UInt32.toNat_inj]
    simp
  rw [Proxy.Message.read, found, loads 8 (Nat.le_refl 8), loads 4 (by decide), low]

theorem filterMap_found_concat (handled : List (UInt8 × UInt64)) (entry : UInt8 × UInt64) :
    (handled ++ [entry]).filterMap found = handled.filterMap found ++ (found entry).toList := by
  rw [List.filterMap_append]
  cases kind : found entry <;> simp [kind]

/-- A change of the segment of the AP. -/
theorem Views.update {s' : State} {h : Proxy.State} {change : Proxy.Segment → Proxy.Segment} {pc : Proxy.ApPc}
    (ap : pc = s'.ap.loop) (own : Shows s'.segment s'.handled (change (h.segments (h.started - 1)))) :
    Views s' { h.update (h.started - 1) change with ap := pc } :=
  ⟨ap, (h.update_self (h.started - 1) change).symm ▸ own⟩

/-- A step of the AP is a step of the AP in the handshake. -/
theorem apStep_views (env : Env) {s s' : State} {h : Proxy.State} (views : Views s h) (stepped : apStep s = some s') :
    ∃ h', Proxy.apStep env h = some h' ∧ Views s' h' := by
  obtain ⟨ap, own⟩ := views
  have apart : offsetOf apStruct .semr ≠ offsetOf apStruct .semw := by decide
  unfold Proxy.apStep
  cases pc : s.ap with
  | waiting =>
    rw [pc] at ap
    simp only [apStep, pc] at stepped
    obtain ⟨segment, waited, rfl⟩ := Option.map_eq_some_iff.mp stepped
    unfold Segment.wait at waited
    split_ifs at waited with zero
    obtain rfl := Option.some.inj waited
    simp only [ap, ApPc.loop, own.semw, if_neg zero]
    refine ⟨_, rfl, .update rfl ⟨?_, ?_, own.type, own.data, own.taken⟩⟩
    · dsimp only
      rw [Function.update_of_ne apart]
      exact own.semr
    · dsimp only
      rw [Function.update_self, own.semw]
  | received =>
    rw [pc] at ap
    simp only [apStep, pc] at stepped
    obtain rfl := Option.some.inj stepped
    simp only [ap, ApPc.loop, own.type]
    exact ⟨_, rfl, rfl, own⟩
  | handling kind =>
    rw [pc] at ap
    simp only [apStep, pc] at stepped
    obtain rfl := Option.some.inj stepped
    have message := read_eq_found kind (offsetOf apStruct .data) fun i inside => own.data i (by omega)
    simp only [ap, ApPc.loop, message]
    generalize UInt64.ofNat (loadLE s.segment.bytes (offsetOf apStruct .data) 8) = addr
    have taken := filterMap_found_concat s.handled (kind, addr)
    rw [← own.taken] at taken
    -- the types that are known, and all others
    cases kindOf : found (kind, addr) with
    | none =>
      rw [kindOf, Option.toList_none, List.append_nil] at taken
      unfold found at kindOf
      split_ifs at kindOf with cov pt exit
      exact ⟨_, rfl, by simp [cov, pt, exit, ApPc.loop], own.semr, own.semw, own.type, own.data, taken.symm⟩
    | some m =>
      rw [kindOf] at taken
      refine ⟨_, rfl, .update ?_ ⟨own.semr, own.semw, own.type, own.data, taken.symm⟩⟩
      unfold found at kindOf
      split_ifs at kindOf with cov pt exit <;> obtain rfl := Option.some.inj kindOf
      · rw [if_pos (.inl cov)]
        rfl
      · rw [if_pos (.inr pt)]
        rfl
      · rw [if_neg (not_or.mpr ⟨cov, pt⟩), if_pos exit]
        rfl
  | posting run =>
    rw [pc] at ap
    simp only [apStep, pc] at stepped
    obtain rfl := Option.some.inj stepped
    simp only [ap, ApPc.loop]
    refine ⟨_, rfl, .update (by cases run <;> rfl) ⟨?_, ?_, own.type, own.data, own.taken⟩⟩
    · dsimp only [Segment.post]
      rw [Function.update_self, own.semr]
    · dsimp only [Segment.post]
      rw [Function.update_of_ne apart.symm]
      exact own.semw
  | exited | aborted => simp [apStep, pc] at stepped

/-- Where the AP has no step here, it has none in the handshake either, or is about to close its segment. -/
theorem apStep_blocked (env : Env) {s : State} {h : Proxy.State} (views : Views s h) (blocked : apStep s = none) :
    s.ap = .exited ∨ Proxy.apStep env h = none := by
  obtain ⟨ap, own⟩ := views
  unfold Proxy.apStep
  cases pc : s.ap with
  | waiting =>
    rw [pc] at ap
    simp only [apStep, pc, Option.map_eq_none_iff, Segment.wait] at blocked
    split_ifs at blocked with zero
    simp only [ap, ApPc.loop, own.semw, if_pos zero]
    exact .inr trivial
  | received | handling | posting => simp [apStep, pc] at blocked
  | exited => exact .inl rfl
  | aborted =>
    rw [pc] at ap
    simp only [ap, ApPc.loop]
    exact .inr trivial

/-! ## What should hold -/

def ApBlocked (s : State) : Prop := s.ap = .waiting ∧ s.segment.sems (offsetOf apStruct .semw) = 0

def PexBlocked (s : State) : Prop := (∃ m rest, s.pex = .wait m rest) ∧ s.segment.sems (offsetOf pexStruct .semr) = 0

/-- What the AP has found is what PeX has stored. -/
def Message.Matches (m : Message) (found : UInt8 × UInt64) : Prop :=
  found.1 = m.type ∧ ∀ pc, m = .cov pc → found.2 = pc

/-- In every reachable state one side at least can go on, and each message that the AP has handled is
    the one that PeX has stored. -/
def Reliable (semr : Nat) (path : Memory) (messages : List Message) : Prop :=
  ∀ schedule s, Run (fun s side t => step s side = some t) (initial semr path messages) schedule s →
    ¬ (ApBlocked s ∧ PexBlocked s) ∧
      ∀ (i : Nat) found, s.handled[i]? = some found → ∃ m, s.stored[i]? = some m ∧ m.Matches found

theorem Message.type_ne_zero (m : Message) : m.type ≠ 0 := by
  cases m with
  | cov pc => exact (by decide : (0x01 : UInt8) ≠ 0)
  | kill => decide

/-- Before the first message both sides wait. -/
theorem blocked_before_first (path : Memory) (m : Message) (rest : List Message) :
    ∃ s, [Side.pex].foldlM step (initial 0 path (m :: rest)) = some s ∧ ApBlocked s ∧ PexBlocked s :=
  ⟨_, rfl, ⟨rfl, rfl⟩, ⟨m, rest, rfl⟩, rfl⟩

def firstExchange : List Side := [.pex, .pex, .pex, .pex, .pex, .ap, .ap, .ap]

/-- If PeX did not have to wait for its first message, the AP would find a zero for its type: the
    bytes that PeX writes are bytes of `path` for the AP. -/
theorem zero_found_first (n : Nat) (path : Memory) (m : Message) (rest : List Message) :
    ∃ s addr, firstExchange.foldlM step (initial (n + 1) path (m :: rest)) = some s ∧ s.handled = [(0, addr)] ∧
      s.stored = [m] := by
  cases m with
  | cov pc => exact ⟨_, _, rfl, rfl, rfl⟩
  | kill => exact ⟨_, _, rfl, rfl, rfl⟩

theorem reliable_iff (semr : Nat) (path : Memory) (messages : List Message) :
    Reliable semr path messages ↔ messages = [] := by
  constructor
  · intro reliable
    cases messages with
    | nil => rfl
    | cons m rest =>
      cases semr with
      | zero =>
        obtain ⟨s, executed, blocked⟩ := blocked_before_first path m rest
        exact absurd blocked (reliable _ s (Run.of_foldlM executed)).1
      | succ n =>
        obtain ⟨s, addr, executed, handled, stored⟩ := zero_found_first n path m rest
        obtain ⟨m', first, type, -⟩ := (reliable _ s (Run.of_foldlM executed)).2 0 (0, addr) (by rw [handled]; rfl)
        rw [stored] at first
        exact absurd (Option.some.inj first ▸ type.symm) m.type_ne_zero
  · rintro rfl schedule s run
    -- nothing can happen: PeX has nothing to send, and the AP waits for it
    have same : s = initial semr path [] := by
      refine run.invariant (P := fun s => s = initial semr path []) ?_ rfl
      rintro _ side t rfl stepped
      cases side with
      | pex => exact absurd stepped nofun
      | ap => exact absurd stepped nofun
    subst same
    refine ⟨?_, fun i found handled => absurd handled nofun⟩
    rintro ⟨-, ⟨m, rest, waiting⟩, -⟩
    cases waiting

/-- One block, with both semaphores at 0 as the AP initialises them. -/
theorem not_reliable_oneBlock : ¬ Reliable 0 (fun _ => 0) [.cov 0xffffffff81000000] := by
  intro reliable
  obtain ⟨s, executed, blocked⟩ := blocked_before_first (fun _ => 0) (.cov 0xffffffff81000000) []
  exact absurd blocked (reliable _ s (Run.of_foldlM executed)).1

end DevFuzz.Proxy.PexChannel
