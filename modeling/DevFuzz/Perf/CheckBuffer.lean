import Mathlib.Algebra.BigOperators.Group.List.Basic
import Mathlib.Algebra.Ring.Nat
import DevFuzz.Lib.Machine
import DevFuzz.Lib.Run

/-! # The regular perf ring

The kernel appends records to the ring; `check_buffer` of `proxy/pt-runner.cpp`
takes a snapshot of `data_head` and `data_tail`, visits the records between the
two, and publishes a new `data_tail`.  What it publishes is not its snapshot but
`data_head` read once more, so records that arrive in between are skipped.

The ring is modelled by the records appended so far; `recordAt` finds the record
that starts at an offset.  Offsets are natural numbers: they stay below `2 ^ 64`.
-/

namespace DevFuzz.Perf

open DevFuzz.Lib

/-! ## Records -/

/-- The record types `check_buffer` tells apart. -/
inductive RecordType where
  | aux (auxSize : Nat)
  | itraceStart
  | mmap
  | lost
  | comm
  | exit
  | throttle
  | unthrottle
  | fork
  | read
  | sample
  | mmap2
  | lostSamples
  | switch
  | switchCpuWide
  | namespaces
  | ksymbol
  | bpfEvent
  | other
  deriving DecidableEq, Repr

structure Record where
  type : RecordType
  size : Nat
  size_pos : 0 < size
  deriving DecidableEq, Repr

def Record.auxSize (r : Record) : Nat :=
  match r.type with
  | .aux auxSize => auxSize
  | _ => 0

/-- Types behind which the loop goes on; every other one ends the process, in `unreachable`
    or in `exit(-1)`. -/
def RecordType.handled : RecordType → Bool
  | .aux _ => true
  | .itraceStart => true
  | _ => false

/-- The bytes that records take in the ring. -/
def total (records : List Record) : Nat := (records.map Record.size).sum

def auxTotal (records : List Record) : Nat := (records.map Record.auxSize).sum

/-- The record that starts at an offset of the stream. -/
def recordAt : List Record → Nat → Option Record
  | [], _ => none
  | r :: records, offset =>
    if offset = 0 then some r
    else if r.size ≤ offset then recordAt records (offset - r.size)
    else none

/-! ## The proxy -/

/-- Where `check_buffer` stands: not called, at the head of the record loop with its local
    variables, about to read `data_head` again, about to store it, or ended with the process. -/
inductive Pc where
  | idle
  | loop (dataHead dataTail : Nat)
  | reread
  | store (dataHead : Nat)
  | dead
  deriving DecidableEq, Repr

structure State where
  dataHead : Nat
  dataTail : Nat
  auxHead : Nat
  auxTail : Nat
  /-- all records the kernel has appended -/
  appended : List Record
  /-- the records the loop has looked at, in order -/
  visited : List Record
  pc : Pc
  deriving DecidableEq, Repr

def State.init : State := ⟨0, 0, 0, 0, [], [], .idle⟩

/-- `REGULAR_RING_DATA_PAGES * 4096` -/
def ringDataSize : Int := 4 * 4096

/-- The index `get_event` computes from `data_tail`, which it takes as an `int`. -/
def realTail (dataTail : Nat) : Int := (BitVec.ofNat 32 dataTail).toInt.tmod ringDataSize

/-- One pass of the record loop. -/
def visit (s : State) (dataHead dataTail : Nat) : State :=
  -- a negative index makes `get_event` read and copy outside the ring
  if realTail dataTail < 0 then { s with pc := .dead }
  else
    match recordAt s.appended dataTail with
    | none => { s with pc := .dead }
    | some r =>
      let s := { s with visited := s.visited ++ [r] }
      if r.type.handled then
        if r.auxSize ≠ 0 then
          -- `assert(pmap->aux_tail + auxSize <= pmap->aux_head)`
          if s.auxTail + r.auxSize ≤ s.auxHead then
            { s with auxTail := s.auxTail + r.auxSize, pc := .loop dataHead (dataTail + r.size) }
          else { s with pc := .dead }
        else { s with pc := .loop dataHead (dataTail + r.size) }
      else { s with pc := .dead }

/-- The next step of the proxy, which calls `check_buffer` over and over.  Nothing else writes
    `data_tail`, so the first compare-and-swap succeeds. -/
def proxy (s : State) : State :=
  match s.pc with
  | .idle => if s.dataHead = s.dataTail then s else { s with pc := .loop s.dataHead s.dataTail }
  | .loop dataHead dataTail =>
    if dataHead ≠ dataTail then visit s dataHead dataTail else { s with pc := .reread }
  | .reread => { s with pc := .store s.dataHead }
  | .store dataHead => { s with dataTail := dataHead, pc := .idle }
  | .dead => s

/-- The kernel appends a record. -/
def append (s : State) (r : Record) : State :=
  { s with
    dataHead := s.dataHead + r.size, auxHead := s.auxHead + r.auxSize, appended := s.appended ++ [r] }

inductive Action where
  | append (r : Record)
  | proxy
  deriving DecidableEq, Repr

def step (s : State) : Action → State
  | .append r => append s r
  | .proxy => proxy s

/-- Any interleaving of appends with the steps of the proxy. -/
def Interleaved (s : State) (a : Action) (t : State) : Prop := step s a = t

/-- The time from the snapshot to the second read of `data_head`. -/
def Pc.inWindow : Pc → Bool
  | .loop _ _ => true
  | .reread => true
  | _ => false

/-- Interleavings in which no record arrives inside the window. -/
def Quiet (s : State) (a : Action) (t : State) : Prop :=
  step s a = t ∧ (a ≠ .proxy → s.pc.inWindow = false)

/-! ## Streams of records -/

theorem total_append (left right : List Record) : total (left ++ right) = total left + total right := by
  simp [total]

theorem auxTotal_append (left right : List Record) :
    auxTotal (left ++ right) = auxTotal left + auxTotal right := by
  simp [auxTotal]

theorem total_pos {records : List Record} (nonempty : records ≠ []) : 0 < total records := by
  cases records with
  | nil => exact absurd rfl nonempty
  | cons r records =>
    have := r.size_pos
    simp only [total, List.map_cons, List.sum_cons]
    omega

/-- The record behind a prefix starts where the prefix ends. -/
theorem recordAt_total (before after : List Record) (r : Record) :
    recordAt (before ++ r :: after) (total before) = some r := by
  induction before with
  | nil => simp [recordAt, total]
  | cons first before ih =>
    have positive := first.size_pos
    have shape : total (first :: before) = first.size + total before := by simp [total]
    rw [List.cons_append, recordAt, shape, if_neg (by omega), if_pos (by omega), Nat.add_sub_cancel_left]
    exact ih

/-- A prefix of the whole length is the whole. -/
theorem eq_of_prefix_of_total {visited appended : List Record} (front : visited <+: appended)
    (same : total visited = total appended) : visited = appended := by
  obtain ⟨rest, rfl⟩ := front
  rw [total_append] at same
  cases rest with
  | nil => simp
  | cons r rest =>
    have := total_pos (List.cons_ne_nil r rest)
    omega

/-! ## What holds when no record arrives inside the window -/

/-- The records visited are the first ones appended, and the position of the proxy is the end
    of the last one. -/
structure Tracked (s : State) : Prop where
  head : s.dataHead = total s.appended
  auxHead : s.auxHead = auxTotal s.appended
  front : s.visited <+: s.appended
  auxTail : s.pc ≠ .dead → s.auxTail = auxTotal s.visited
  idle : s.pc = .idle → s.dataTail = total s.visited
  loop : ∀ dataHead dataTail, s.pc = .loop dataHead dataTail →
    dataHead = s.dataHead ∧ dataTail = total s.visited
  reread : s.pc = .reread → s.visited = s.appended
  store : ∀ dataHead, s.pc = .store dataHead → dataHead = total s.visited

theorem tracked_init : Tracked .init := by
  constructor <;> simp [State.init, total, auxTotal]

theorem tracked_append {s : State} (tracked : Tracked s) (outside : s.pc.inWindow = false)
    (r : Record) : Tracked (append s r) where
  head := by simp [append, tracked.head, total]
  auxHead := by simp [append, tracked.auxHead, auxTotal]
  front := tracked.front.trans (List.prefix_append _ _)
  auxTail := tracked.auxTail
  idle := tracked.idle
  loop := by
    intro dataHead dataTail pc
    have pc' : s.pc = .loop dataHead dataTail := pc
    simp [pc', Pc.inWindow] at outside
  reread := by
    intro pc
    have pc' : s.pc = .reread := pc
    simp [pc', Pc.inWindow] at outside
  store := tracked.store

/-- A tracked state whose process has ended. -/
theorem tracked_dead {s t : State} (tracked : Tracked s) (dead : t.pc = .dead)
    (appended : t.appended = s.appended) (dataHead : t.dataHead = s.dataHead)
    (auxHead : t.auxHead = s.auxHead) (front : t.visited <+: s.appended) : Tracked t := by
  constructor <;> simp [dead, appended, dataHead, auxHead, tracked.head, tracked.auxHead, front]

/-- One pass of the loop visits the next record, and ends the process when `get_event` leaves
    the ring or the type is not handled; the assertion on `aux_tail` never fails. -/
theorem visit_eq {s : State} {dataHead dataTail : Nat} (tracked : Tracked s)
    (pc : s.pc = .loop dataHead dataTail) (more : dataHead ≠ dataTail) :
    ∃ r rest, s.appended = s.visited ++ r :: rest ∧
      visit s dataHead dataTail =
        if realTail dataTail < 0 then { s with pc := .dead }
        else if r.type.handled then
          { s with
            visited := s.visited ++ [r], auxTail := s.auxTail + r.auxSize
            pc := .loop dataHead (dataTail + r.size) }
        else { s with visited := s.visited ++ [r], pc := .dead } := by
  obtain ⟨head, tail⟩ := tracked.loop _ _ pc
  have aux := tracked.auxTail (by simp [pc])
  obtain ⟨rest, appended⟩ := tracked.front
  -- with nothing left to visit, `data_tail` would have reached `data_head`
  cases rest with
  | nil =>
    rw [List.append_nil] at appended
    exact absurd (by rw [head, tracked.head, tail, appended]) more
  | cons r rest =>
    have found : recordAt s.appended dataTail = some r := by
      rw [← appended, tail]
      exact recordAt_total _ _ _
    have auxRoom : s.auxTail + r.auxSize ≤ s.auxHead := by
      rw [tracked.auxHead, ← appended, auxTotal_append, aux]
      simp [auxTotal]
    refine ⟨r, rest, appended.symm, ?_⟩
    by_cases none : r.auxSize = 0
    · simp [visit, found, none]
    · simp [visit, found, none, auxRoom]

theorem tracked_visit {s : State} {dataHead dataTail : Nat} (tracked : Tracked s)
    (pc : s.pc = .loop dataHead dataTail) (more : dataHead ≠ dataTail) :
    Tracked (visit s dataHead dataTail) := by
  obtain ⟨head, tail⟩ := tracked.loop _ _ pc
  have aux := tracked.auxTail (by simp [pc])
  obtain ⟨r, rest, appended, visited⟩ := visit_eq tracked pc more
  have front : s.visited ++ [r] <+: s.appended := ⟨rest, by simp [appended]⟩
  rw [visited]
  split_ifs
  · exact tracked_dead tracked rfl rfl rfl rfl tracked.front
  · constructor
    case loop =>
      rintro _ _ ⟨⟩
      exact ⟨head, by simp [tail, total]⟩
    all_goals simp [tracked.head, tracked.auxHead, front, aux, auxTotal]
  · exact tracked_dead tracked rfl rfl rfl rfl front

/-- The program counter and `data_tail` may change to anything that fits the records visited. -/
theorem tracked_of_pc {s : State} (tracked : Tracked s) (running : s.pc ≠ .dead) {pc : Pc}
    {dataTail : Nat} (idle : pc = .idle → dataTail = total s.visited)
    (loop : ∀ dataHead dataTail, pc = .loop dataHead dataTail →
      dataHead = s.dataHead ∧ dataTail = total s.visited)
    (reread : pc = .reread → s.visited = s.appended)
    (store : ∀ dataHead, pc = .store dataHead → dataHead = total s.visited) :
    Tracked { s with dataTail := dataTail, pc := pc } where
  head := tracked.head
  auxHead := tracked.auxHead
  front := tracked.front
  auxTail := fun _ => tracked.auxTail running
  idle := idle
  loop := loop
  reread := reread
  store := store

theorem tracked_proxy {s : State} (tracked : Tracked s) : Tracked (proxy s) := by
  cases pc : s.pc with
  | idle =>
    simp only [proxy, pc]
    split_ifs
    · exact tracked
    · apply tracked_of_pc tracked (by simp [pc]) <;> simp
      exact tracked.idle pc
  | loop dataHead dataTail =>
    obtain ⟨head, tail⟩ := tracked.loop _ _ pc
    simp only [proxy, pc]
    split_ifs with more
    · exact tracked_visit tracked pc more
    · -- the loop ends with every appended record visited
      apply tracked_of_pc tracked (by simp [pc]) <;> simp
      apply eq_of_prefix_of_total tracked.front
      rw [← tail, ← tracked.head, ← head]
      exact (not_not.mp more).symm
  | reread =>
    simp only [proxy, pc]
    apply tracked_of_pc tracked (by simp [pc]) <;> simp
    rw [tracked.head, tracked.reread pc]
  | store dataHead =>
    simp only [proxy, pc]
    apply tracked_of_pc tracked (by simp [pc]) <;> simp
    exact tracked.store dataHead pc
  | dead => simpa [proxy, pc] using tracked

/-! ## Catching up -/

/-- Records that neither end the process nor make `get_event` compute a negative index. -/
def Benign (records : List Record) : Prop :=
  (∀ r ∈ records, r.type.handled = true) ∧ total records ≤ 2 ^ 31

theorem realTail_nonneg {dataTail : Nat} (small : dataTail < 2 ^ 31) : 0 ≤ realTail dataTail := by
  have value : (BitVec.ofNat 32 dataTail).toInt = dataTail := by
    rw [BitVec.toInt_eq_toNat_of_lt] <;> rw [BitVec.toNat_ofNat, Nat.mod_eq_of_lt] <;> omega
  rw [realTail, value]
  exact Int.tmod_nonneg _ (by omega)

/-- Benign records never end the process. -/
theorem proxy_ne_dead {s : State} (tracked : Tracked s) (benign : Benign s.appended)
    (running : s.pc ≠ .dead) : (proxy s).pc ≠ .dead := by
  cases pc : s.pc with
  | idle =>
    simp only [proxy, pc]
    split_ifs <;> simp [pc]
  | loop dataHead dataTail =>
    simp only [proxy, pc]
    split_ifs with more
    · obtain ⟨r, rest, appended, visited⟩ := visit_eq tracked pc more
      obtain ⟨handled, small⟩ := benign
      have tail := (tracked.loop _ _ pc).2
      -- `data_tail` stands in front of `r`, strictly below the total of the records
      rw [appended, total_append] at small
      have positive := total_pos (List.cons_ne_nil r rest)
      have inside := realTail_nonneg (show dataTail < 2 ^ 31 by omega)
      rw [visited, if_neg (by omega), if_pos (handled r (by simp [appended]))]
      simp
    · simp
  | reread => simp [proxy, pc]
  | store dataHead => simp [proxy, pc]
  | dead => exact absurd pc running

/-- The proxy has nothing to do: it has ended, or its ring is empty. -/
def State.Settled (s : State) : Prop := s.pc = .dead ∨ (s.pc = .idle ∧ s.dataHead = s.dataTail)

theorem proxy_of_settled (s : State) (settled : s.Settled) : proxy s = s := by
  rcases settled with dead | ⟨idle, empty⟩
  · simp [proxy, dead]
  · simp [proxy, idle, empty]

/-- The steps the proxy needs at most before it settles. -/
def State.steps (s : State) : Nat :=
  let pending := s.appended.length - s.visited.length
  match s.pc with
  | .idle => if s.visited = s.appended then 0 else pending + 4
  | .loop _ _ => pending + 3
  | .reread => 2
  -- records that arrived since the second read of `data_head` cost another round
  | .store _ => if s.visited = s.appended then 1 else pending + 5
  | .dead => 0

theorem steps_proxy {s : State} (tracked : Tracked s) (busy : ¬ s.Settled) :
    (proxy s).steps < s.steps := by
  cases pc : s.pc with
  | idle =>
    have nonempty : s.dataHead ≠ s.dataTail := fun empty => busy (.inr ⟨pc, empty⟩)
    have behind : s.visited ≠ s.appended := by
      intro all
      rw [tracked.head, tracked.idle pc, all] at nonempty
      exact nonempty rfl
    simp [proxy, pc, nonempty, State.steps, behind]
  | loop dataHead dataTail =>
    by_cases more : dataHead = dataTail
    · simp [proxy, pc, more, State.steps]
    · obtain ⟨r, rest, appended, visited⟩ := visit_eq tracked pc more
      simp only [proxy, pc, ne_eq, more, not_false_eq_true, if_true, visited]
      split_ifs
      · simp [State.steps, pc]
      · simp only [State.steps, pc, appended, List.length_append, List.length_cons, List.length_nil]
        omega
      · simp [State.steps, pc]
  | reread => simp [proxy, pc, State.steps, tracked.reread pc]
  | store dataHead =>
    by_cases all : s.visited = s.appended
    · simp [proxy, pc, State.steps, all]
    · simp [proxy, pc, State.steps, all]
  | dead => exact absurd (.inl pc) busy

theorem visit_appended (s : State) (dataHead dataTail : Nat) :
    (visit s dataHead dataTail).appended = s.appended := by
  unfold visit
  split
  · rfl
  · split
    · rfl
    · simp only
      split_ifs <;> rfl

theorem proxy_appended (s : State) : (proxy s).appended = s.appended := by
  cases pc : s.pc with
  | loop dataHead dataTail =>
    simp only [proxy, pc]
    split_ifs
    · exact visit_appended s dataHead dataTail
    · rfl
  | idle =>
    simp only [proxy, pc]
    split_ifs <;> rfl
  | _ => simp [proxy, pc]

/-- Tracked, and alive as long as the records are benign. -/
def Sound (s : State) : Prop := Tracked s ∧ (Benign s.appended → s.pc ≠ .dead)

theorem sound_proxy {s : State} (sound : Sound s) : Sound (proxy s) := by
  refine ⟨tracked_proxy sound.1, ?_⟩
  rw [proxy_appended]
  exact fun benign => proxy_ne_dead sound.1 benign (sound.2 benign)

theorem benign_of_append {records : List Record} {r : Record} (benign : Benign (records ++ [r])) :
    Benign records := by
  obtain ⟨handled, small⟩ := benign
  rw [total_append] at small
  exact ⟨fun r member => handled r (List.mem_append_left _ member), by omega⟩

theorem sound_of_quiet {s : State} {actions : List Action} (run : Run Quiet .init actions s) :
    Sound s := by
  refine run.invariant ?_ ⟨tracked_init, by simp [State.init]⟩
  rintro s a t sound ⟨rfl, quiet⟩
  cases a with
  | append r =>
    exact ⟨tracked_append sound.1 (quiet (by simp)) r, fun benign => sound.2 (benign_of_append benign)⟩
  | proxy => exact sound_proxy sound

/-- Left alone, the proxy visits everything that has been appended. -/
theorem exists_caughtUp {s : State} (sound : Sound s) (benign : Benign s.appended) :
    ∃ n, (proxy^[n] s).pc = .idle ∧ (proxy^[n] s).visited = s.appended := by
  refine ⟨s.steps, ?_⟩
  have settled : (proxy^[s.steps] s).Settled :=
    halted_of_measure (P := Sound) proxy_of_settled (fun _ => sound_proxy) State.steps
      (fun _ sound busy => steps_proxy sound.1 busy) sound (Nat.le_refl _)
  have same : (proxy^[s.steps] s).appended = s.appended :=
    Function.Iterate.rec (fun t => t.appended = s.appended) rfl
      (fun t same => (proxy_appended t).trans same) s.steps
  have later : Sound (proxy^[s.steps] s) := Function.Iterate.rec Sound sound (fun _ => sound_proxy) _
  rcases settled with dead | ⟨idle, empty⟩
  · exact absurd dead (later.2 (same.symm ▸ benign))
  · refine ⟨idle, ?_⟩
    rw [← same]
    exact eq_of_prefix_of_total later.1.front (by rw [← later.1.head, ← later.1.idle idle, empty])

/-! ## No record lost, none visited twice -/

/-- In every run in which no record arrives between the snapshot and the second read of
    `data_head`: the records visited are always the first ones appended, each once and in order;
    when the proxy is idle on an empty ring all have been visited and `aux_tail` accounts for
    them; and benign records are all visited when the proxy goes on. -/
theorem quiet_visits_each_once {s : State} {actions : List Action} (run : Run Quiet .init actions s) :
    s.visited <+: s.appended ∧
      (s.pc = .idle → s.dataTail = s.dataHead →
        s.visited = s.appended ∧ s.auxTail = auxTotal s.appended) ∧
      (Benign s.appended → ∃ n, (proxy^[n] s).pc = .idle ∧ (proxy^[n] s).visited = s.appended) := by
  have sound := sound_of_quiet run
  refine ⟨sound.1.front, ?_, exists_caughtUp sound⟩
  intro idle empty
  have all : s.visited = s.appended :=
    eq_of_prefix_of_total sound.1.front (by rw [← sound.1.head, ← sound.1.idle idle, empty])
  refine ⟨all, ?_⟩
  rw [sound.1.auxTail (by simp [idle]), all]

def auxRecord (auxSize : Nat) : Record := ⟨.aux auxSize, 64, by decide⟩

/-- One AUX record, and the five steps of the call that handles it. -/
theorem quiet_visits_one :
    ∃ s, Run Quiet .init [.append (auxRecord 8), .proxy, .proxy, .proxy, .proxy, .proxy] s ∧
      s.pc = .idle ∧ s.visited = s.appended ∧ s.auxTail = auxTotal s.appended ∧ s.auxTail = 8 := by
  have run : Run Quiet .init [.append (auxRecord 8), .proxy, .proxy, .proxy, .proxy, .proxy]
      ⟨64, 64, 8, 8, [auxRecord 8], [auxRecord 8], .idle⟩ :=
    .cons ⟨rfl, by decide⟩ (.cons ⟨rfl, by decide⟩ (.cons ⟨rfl, by decide⟩ (.cons ⟨rfl, by decide⟩
      (.cons ⟨rfl, by decide⟩ (.cons ⟨rfl, by decide⟩ (.nil _))))))
  obtain ⟨all, aux⟩ := (quiet_visits_each_once run).2.1 rfl rfl
  exact ⟨_, run, rfl, all, aux, rfl⟩

/-- A second AUX record arrives after the snapshot: the call publishes a tail behind it without
    having visited it. -/
theorem record_lost_inside_window :
    ∃ s, Run Interleaved .init
        [ .append (auxRecord 8), .proxy, .append (auxRecord 24), .proxy, .proxy, .proxy, .proxy ] s ∧
      s.pc = .idle ∧ s.dataTail = s.dataHead ∧ s.appended = [auxRecord 8, auxRecord 24] ∧
      s.visited = [auxRecord 8] ∧ s.auxTail ≠ auxTotal s.appended := by
  refine ⟨_, .cons rfl (.cons rfl (.cons rfl (.cons rfl (.cons rfl (.cons rfl (.cons rfl (.nil _))))))),
    ?_⟩
  decide

end DevFuzz.Perf
