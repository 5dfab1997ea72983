import Mathlib.Algebra.Order.BigOperators.Group.List
import Mathlib.Algebra.Order.Ring.Nat
import Mathlib.Data.List.Basic

/-! # Host resources of the client over many epochs

`real_ap_init` and `ap_exit` of `aplib.cpp` acquire and release descriptors and
mappings, through the class `SHM` and directly.  The functions return the system calls
they make; what is live at a moment is determined by the calls made before it.

`ap_exit` releases all that an epoch has acquired but the mapping of the fuzz file and
a shared memory descriptor 0, so that these add up (`size_after`).
-/

namespace DevFuzz.Aplib

/-! ## The host -/

inductive Backing where
  | shm
  | fuzzFile
  deriving DecidableEq, Repr

/-- The system calls that succeed. -/
inductive Syscall where
  | openFd (fd : Nat) (what : Backing)
  | close (fd : Nat)
  | mmap (addr : Nat) (what : Backing)
  | munmap (addr : Nat)
  deriving DecidableEq, Repr

/-- The live descriptors and mappings of the client. -/
structure Host where
  descriptors : List (Nat × Backing)
  mappings : List (Nat × Backing)

namespace Host

def apply (host : Host) : Syscall → Host
  | .openFd fd what => { host with descriptors := (fd, what) :: host.descriptors }
  | .close fd => { host with descriptors := host.descriptors.filter (·.1 ≠ fd) }
  | .mmap addr what => { host with mappings := (addr, what) :: host.mappings }
  | .munmap addr => { host with mappings := host.mappings.filter (·.1 ≠ addr) }

def run (host : Host) (calls : List Syscall) : Host := calls.foldl apply host

def size (host : Host) : Nat := host.descriptors.length + host.mappings.length

def fileMappings (host : Host) : Nat := host.mappings.countP (·.2 = .fuzzFile)

/-- The kernel returns descriptors and addresses that are not in use. -/
def Fresh (host : Host) : Syscall → Prop
  | .openFd fd _ => ∀ entry ∈ host.descriptors, entry.1 ≠ fd
  | .mmap addr _ => ∀ entry ∈ host.mappings, entry.1 ≠ addr
  | _ => True

def Admissible (host : Host) : List Syscall → Prop
  | [] => True
  | call :: calls => host.Fresh call ∧ (host.apply call).Admissible calls

end Host

/-! ## The class `SHM` -/

/-- `fd` and `smem`. -/
structure SHM where
  fd : Int
  smem : Option Nat

/-- A mapping that has succeeded has a size, so that `munmap` succeeds as well. -/
def SHM.close (shm : SHM) : List Syscall × SHM :=
  (shm.smem.toList.map .munmap ++ if 0 < shm.fd then [.close shm.fd.toNat] else [], ⟨0, none⟩)

/-- The results of `shm_open` and `mmap` in `connectOpen`. -/
inductive Connect where
  | noSegment
  | noMapping (fd : Nat)
  | mapped (fd addr : Nat)

/-- `connectOpen` of a new object. -/
def SHM.connectOpen : Connect → List Syscall × SHM × Bool
  | .noSegment => ([], ⟨-1, none⟩, false)
  | .noMapping fd =>
    let (calls, shm) := SHM.close ⟨fd, none⟩
    (.openFd fd .shm :: calls, shm, false)
  | .mapped fd addr => ([.openFd fd .shm, .mmap addr .shm], ⟨fd, some addr⟩, true)

/-! ## An epoch -/

/-- An attempt to connect that does not lead out of the loop. -/
inductive Retry where
  | noSegment
  | noMapping (fd : Nat)
  | notReady (fd addr : Nat)

/-- What the host answers in an epoch: the attempts that fail and the one that does not, and the
    results of opening the fuzz file as a stream, with `open` and with `mmap`. -/
structure EpochEnv where
  retries : List Retry
  shmFd : Nat
  shmAddr : Nat
  stream : Option Nat
  file : Option (Nat × Option Nat)

/-- The globals `sm`, `shm` and `fuzz_file_fd`. -/
structure Connection where
  sm : Option Nat
  shm : Option SHM
  fuzzFileFd : Int

/-- One round of the loop: `delete shm` calls `close`. -/
def Retry.calls : Retry → List Syscall
  | .noSegment => let (calls, shm, _) := SHM.connectOpen .noSegment
    calls ++ shm.close.1
  | .noMapping fd => let (calls, shm, _) := SHM.connectOpen (.noMapping fd)
    calls ++ shm.close.1
  | .notReady fd addr => let (calls, shm, _) := SHM.connectOpen (.mapped fd addr)
    calls ++ shm.close.1 ++ shm.close.2.close.1

/-- The size of the file is found with an `ifstream`, which is closed again. -/
def streamCalls : Option Nat → List Syscall
  | some fd => [.openFd fd .fuzzFile, .close fd]
  | none => []

/-- `fuzz_file_fd = open(..)` and the mapping of the file, which fails without a descriptor. -/
def fileCalls : Option (Nat × Option Nat) → List Syscall × Int
  | some (fd, some addr) => ([.openFd fd .fuzzFile, .mmap addr .fuzzFile], fd)
  | some (fd, none) => ([.openFd fd .fuzzFile], fd)
  | none => ([], -1)

def realApInit (connection : Connection) (env : EpochEnv) : List Syscall × Connection :=
  if connection.sm.isSome then ([], connection) else
    let (calls, shm, _) := SHM.connectOpen (.mapped env.shmFd env.shmAddr)
    let (fileCalls, fuzzFileFd) := fileCalls env.file
    (env.retries.flatMap Retry.calls ++ (calls ++ (streamCalls env.stream ++ fileCalls)), ⟨shm.smem, some shm, fuzzFileFd⟩)

/-- `close(fuzz_file_fd)`, which fails for -1. -/
def closeFile (fuzzFileFd : Int) : List Syscall := if 0 ≤ fuzzFileFd then [.close fuzzFileFd.toNat] else []

def apExit (connection : Connection) : List Syscall × Connection :=
  match connection.shm with
  | some shm => (closeFile connection.fuzzFileFd ++ (shm.close.1 ++ shm.close.2.close.1), ⟨none, none, -1⟩)
  | none => ([], { connection with sm := none })

def epoch (connection : Connection) (env : EpochEnv) : List Syscall × Connection :=
  let (calls, connection) := realApInit connection env
  let (exitCalls, connection) := apExit connection
  (calls ++ exitCalls, connection)

/-- The system calls of a run, epoch by epoch. -/
def epochs : Connection → List EpochEnv → List (List Syscall)
  | _, [] => []
  | connection, env :: envs => (epoch connection env).1 :: epochs (epoch connection env).2 envs

/-! ## What one epoch leaves behind -/

namespace Host

theorem run_append (host : Host) (calls more : List Syscall) : host.run (calls ++ more) = (host.run calls).run more :=
  List.foldl_append

theorem admissible_append {host : Host} {calls more : List Syscall} :
    host.Admissible (calls ++ more) ↔ host.Admissible calls ∧ (host.run calls).Admissible more := by
  induction calls generalizing host with
  | nil => simp [Admissible, run]
  | cons call calls ih =>
    simp only [List.cons_append, Admissible, ih, and_assoc]
    rfl

theorem filter_fresh {key : Nat} {entries : List (Nat × Backing)} (fresh : ∀ entry ∈ entries, entry.1 ≠ key) :
    entries.filter (·.1 ≠ key) = entries :=
  List.filter_eq_self.mpr fun entry member => decide_eq_true (fresh entry member)

end Host

open Host

/-- The shared memory descriptor that `close` takes for none. -/
def lostFd (fd : Nat) : Nat := if fd = 0 then 1 else 0

def Retry.lost : Retry → Nat
  | .noSegment => 0
  | .noMapping fd => lostFd fd
  | .notReady fd _ => lostFd fd

def EpochEnv.mapsFile (env : EpochEnv) : Bool := (env.file.bind Prod.snd).isSome

/-- How much an epoch acquires and does not release. -/
def EpochEnv.lost (env : EpochEnv) : Nat :=
  (env.retries.map Retry.lost).sum + lostFd env.shmFd + env.mapsFile.toNat

section

variable {host : Host} {fd addr : Nat} {D M : List (Nat × Backing)}

theorem size_closeFd (fresh : ∀ entry ∈ D, entry.1 ≠ fd) :
    ((⟨(fd, .shm) :: D, M⟩ : Host).run (if 0 < (fd : Int) then [.close (fd : Int).toNat] else [])).size =
      D.length + M.length + lostFd fd := by
  by_cases zero : fd = 0
  · subst zero
    simp [run, Host.size, lostFd]
    omega
  · have positive : 0 < (fd : Int) := by omega
    have closed : ((fd, Backing.shm) :: D).filter (·.1 ≠ fd) = D := by
      rw [List.filter_cons_of_neg (by simp), filter_fresh fresh]
    rw [if_pos positive]
    show (List.filter (·.1 ≠ fd) ((fd, Backing.shm) :: D)).length + M.length = _
    rw [closed, lostFd, if_neg zero, Nat.add_zero]

/-- Closing a segment, with other mappings made after its own. -/
theorem size_closeShm (extra : List (Nat × Backing)) (freshFd : ∀ entry ∈ D, entry.1 ≠ fd) (freshAddr : ∀ entry ∈ M, entry.1 ≠ addr)
    (apart : ∀ entry ∈ extra, entry.1 ≠ addr) :
    ((⟨(fd, .shm) :: D, extra ++ (addr, .shm) :: M⟩ : Host).run (SHM.close ⟨fd, some addr⟩).1).size =
      D.length + (extra ++ M).length + lostFd fd := by
  have unmapped : (extra ++ (addr, Backing.shm) :: M).filter (·.1 ≠ addr) = extra ++ M := by
    rw [List.filter_append, List.filter_cons_of_neg (by simp), filter_fresh freshAddr, filter_fresh apart]
  rw [← size_closeFd freshFd (M := extra ++ M), ← unmapped]
  rfl

theorem Retry.size_run {retry : Retry} (admissible : host.Admissible retry.calls) :
    (host.run retry.calls).size = host.size + retry.lost := by
  cases retry with
  | noSegment => rfl
  | noMapping fd =>
    obtain ⟨fresh, -⟩ := admissible
    have calls : (Retry.noMapping fd).calls =
        .openFd fd .shm :: (if 0 < (fd : Int) then [.close (fd : Int).toNat] else []) := List.append_nil _
    rw [calls]
    exact size_closeFd fresh
  | notReady fd addr =>
    obtain ⟨freshFd, freshAddr, -⟩ := admissible
    have calls : (Retry.notReady fd addr).calls =
        .openFd fd .shm :: .mmap addr .shm :: (SHM.close ⟨fd, some addr⟩).1 := List.append_nil _
    rw [calls]
    exact size_closeShm [] freshFd freshAddr (by simp)

theorem size_run_retries {retries : List Retry} (admissible : host.Admissible (retries.flatMap Retry.calls)) :
    (host.run (retries.flatMap Retry.calls)).size = host.size + (retries.map Retry.lost).sum := by
  induction retries generalizing host with
  | nil => rfl
  | cons retry retries ih =>
    rw [List.flatMap_cons, admissible_append] at admissible
    rw [List.flatMap_cons, Host.run_append, ih admissible.2, Retry.size_run admissible.1, List.map_cons, List.sum_cons,
      Nat.add_assoc]

theorem run_streamCalls {stream : Option Nat} (admissible : host.Admissible (streamCalls stream)) :
    host.run (streamCalls stream) = host := by
  cases stream with
  | none => rfl
  | some fd =>
    obtain ⟨fresh, -⟩ := admissible
    have closed : ((fd, Backing.fuzzFile) :: host.descriptors).filter (·.1 ≠ fd) = host.descriptors := by
      rw [List.filter_cons_of_neg (by simp), filter_fresh fresh]
    show (⟨((fd, Backing.fuzzFile) :: host.descriptors).filter (·.1 ≠ fd), host.mappings⟩ : Host) = host
    rw [closed]

/-- What is left of the fuzz file once its descriptor is closed. -/
def fileMapping : Option (Nat × Option Nat) → List (Nat × Backing)
  | some (_, some addr) => [(addr, .fuzzFile)]
  | _ => []

theorem run_file {file : Option (Nat × Option Nat)} (admissible : host.Admissible (fileCalls file).1) :
    host.run ((fileCalls file).1 ++ closeFile (fileCalls file).2) =
        { host with mappings := fileMapping file ++ host.mappings } ∧
      ∀ entry ∈ fileMapping file, ∀ other ∈ host.mappings, entry.1 ≠ other.1 := by
  have closed : ∀ fd, (∀ entry ∈ host.descriptors, entry.1 ≠ fd) →
      ((fd, Backing.fuzzFile) :: host.descriptors).filter (·.1 ≠ fd) = host.descriptors := by
    intro fd fresh
    rw [List.filter_cons_of_neg (by simp), filter_fresh fresh]
  match file with
  | none => exact ⟨rfl, fun _ member => absurd member List.not_mem_nil⟩
  | some (fd, none) =>
    obtain ⟨fresh, -⟩ := admissible
    refine ⟨?_, fun _ member => absurd member List.not_mem_nil⟩
    show (⟨((fd, Backing.fuzzFile) :: host.descriptors).filter (·.1 ≠ fd), host.mappings⟩ : Host) = _
    rw [closed fd fresh]
    rfl
  | some (fd, some addr) =>
    obtain ⟨fresh, unused, -⟩ := admissible
    constructor
    · show (⟨((fd, Backing.fuzzFile) :: host.descriptors).filter (·.1 ≠ fd), (addr, .fuzzFile) :: host.mappings⟩ : Host) = _
      rw [closed fd fresh]
      rfl
    · intro entry member other inside
      rw [List.mem_singleton.mp member]
      exact (unused other inside).symm

end

/-- The calls of an epoch that starts unconnected. -/
def EpochEnv.calls (env : EpochEnv) : List Syscall := (epoch ⟨none, none, -1⟩ env).1

theorem EpochEnv.calls_eq (env : EpochEnv) :
    env.calls = env.retries.flatMap Retry.calls ++ ([.openFd env.shmFd .shm, .mmap env.shmAddr .shm] ++
      (streamCalls env.stream ++ ((fileCalls env.file).1 ++ closeFile (fileCalls env.file).2 ++
        (SHM.close ⟨env.shmFd, some env.shmAddr⟩).1))) := by
  simp [calls, epoch, realApInit, apExit, SHM.connectOpen, SHM.close]

theorem EpochEnv.size_run {host : Host} {env : EpochEnv} (admissible : host.Admissible env.calls) :
    (host.run env.calls).size = host.size + env.lost := by
  rw [calls_eq] at admissible ⊢
  obtain ⟨retries, admissible⟩ := admissible_append.mp admissible
  have retried := size_run_retries retries
  rw [Host.run_append]
  generalize host.run (env.retries.flatMap Retry.calls) = host at admissible retried ⊢
  obtain ⟨⟨freshFd, freshAddr, -⟩, admissible⟩ := admissible_append.mp admissible
  obtain ⟨stream, admissible⟩ := admissible_append.mp admissible
  have file := (admissible_append.mp (admissible_append.mp admissible).1).1
  rw [run_streamCalls stream] at file
  obtain ⟨mapped, apart⟩ := run_file file
  rw [Host.run_append, Host.run_append, run_streamCalls stream, Host.run_append, mapped]
  refine (size_closeShm _ (D := host.descriptors) (M := host.mappings) freshFd freshAddr
    fun entry member => apart entry member _ List.mem_cons_self).trans ?_
  have leaked : (fileMapping env.file).length = env.mapsFile.toNat := by
    unfold fileMapping mapsFile
    match env.file with
    | none => rfl
    | some (_, none) => rfl
    | some (_, some _) => rfl
  rw [List.length_append, leaked, lost]
  unfold Host.size at retried ⊢
  omega

/-! ## Runs -/

theorem epochs_eq_map (envs : List EpochEnv) : epochs ⟨none, none, -1⟩ envs = envs.map EpochEnv.calls := by
  induction envs with
  | nil => rfl
  | cons env envs ih =>
    rw [List.map_cons, ← ih]
    rfl

/-- Any number of epochs, with what the host answers in each. -/
structure EpochRun where
  envs : List EpochEnv
  admissible : Admissible ⟨[], []⟩ (epochs ⟨none, none, -1⟩ envs).flatten

namespace EpochRun

variable (r : EpochRun)

/-- All system calls of the run. -/
def calls : List Syscall := (epochs ⟨none, none, -1⟩ r.envs).flatten

/-- What is live after the `k`-th `ap_exit`. -/
def after (k : Nat) : Host := Host.run ⟨[], []⟩ ((epochs ⟨none, none, -1⟩ r.envs).take k).flatten

/-- No epoch leaves more behind than the first one, and at no moment two mappings of a fuzz file are live. -/
structure NoLeak : Prop where
  size : ∀ k, 1 ≤ k → k ≤ r.envs.length → (r.after k).size = (r.after 1).size
  mappings : ∀ moment, moment <+: r.calls → (Host.run ⟨[], []⟩ moment).fileMappings ≤ 1

theorem size_run_epochs {host : Host} {envs : List EpochEnv}
    (admissible : host.Admissible (envs.map EpochEnv.calls).flatten) :
    (host.run (envs.map EpochEnv.calls).flatten).size = host.size + (envs.map EpochEnv.lost).sum := by
  induction envs generalizing host with
  | nil => rfl
  | cons env envs ih =>
    rw [List.map_cons, List.flatten_cons, admissible_append] at admissible
    rw [List.map_cons, List.flatten_cons, Host.run_append, ih admissible.2, EpochEnv.size_run admissible.1, List.map_cons,
      List.sum_cons, Nat.add_assoc]

theorem size_after (k : Nat) : (r.after k).size = ((r.envs.take k).map EpochEnv.lost).sum := by
  have admissible := r.admissible
  rw [epochs_eq_map, ← List.take_append_drop k (r.envs.map EpochEnv.calls), List.flatten_append, admissible_append,
    ← List.map_take] at admissible
  rw [after, epochs_eq_map, ← List.map_take, size_run_epochs admissible.1]
  exact Nat.zero_add _

def isFileMmap : Syscall → Bool
  | .mmap _ .fuzzFile => true
  | _ => false

theorem fileMappings_run_le (host : Host) (calls : List Syscall) :
    (host.run calls).fileMappings ≤ host.fileMappings + calls.countP isFileMmap := by
  induction calls generalizing host with
  | nil => exact Nat.le_refl _
  | cons call calls ih =>
    have step : (host.apply call).fileMappings ≤ host.fileMappings + if isFileMmap call then 1 else 0 := by
      cases call with
      | openFd fd what => exact Nat.le_refl _
      | close fd => exact Nat.le_refl _
      | munmap addr => exact List.filter_sublist.countP_le
      | mmap addr what =>
        cases what with
        | shm => exact Nat.le_of_eq (List.countP_cons_of_neg (by simp))
        | fuzzFile => exact Nat.le_of_eq (List.countP_cons_of_pos rfl)
    have later := ih (host.apply call)
    rw [List.countP_cons]
    exact later.trans (by omega)

theorem countP_close (shm : SHM) : shm.close.1.countP isFileMmap = 0 := by
  unfold SHM.close
  cases shm.smem <;> split_ifs <;> rfl

theorem countP_retry (retry : Retry) : retry.calls.countP isFileMmap = 0 := by
  cases retry with
  | noSegment => rfl
  | noMapping fd => simp [Retry.calls, SHM.connectOpen, countP_close, isFileMmap]
  | notReady fd addr => simp [Retry.calls, SHM.connectOpen, countP_close, isFileMmap]

theorem countP_epoch (env : EpochEnv) : env.calls.countP isFileMmap = env.mapsFile.toNat := by
  have retries : (env.retries.flatMap Retry.calls).countP isFileMmap = 0 := by
    simp [List.countP_flatMap, Function.comp_def, countP_retry]
  have stream : (streamCalls env.stream).countP isFileMmap = 0 := by
    cases env.stream <;> rfl
  have closed : (closeFile (fileCalls env.file).2).countP isFileMmap = 0 := by
    unfold closeFile
    split_ifs <;> rfl
  have file : (fileCalls env.file).1.countP isFileMmap = env.mapsFile.toNat := by
    unfold EpochEnv.mapsFile
    match env.file with
    | none => rfl
    | some (_, none) => rfl
    | some (_, some _) => rfl
  rw [EpochEnv.calls_eq]
  simp [List.countP_append, retries, stream, closed, file, countP_close, isFileMmap]

theorem mapsFile_le_lost (env : EpochEnv) : env.mapsFile.toNat ≤ env.lost := Nat.le_add_left _ _

/-- If no later epoch loses anything, only the first one maps a file. -/
theorem countP_calls_le_one (clean : ∀ env ∈ r.envs.tail, env.lost = 0) : r.calls.countP isFileMmap ≤ 1 := by
  cases shape : r.envs with
  | nil => simp [calls, shape, epochs]
  | cons first later =>
    rw [shape, List.tail_cons] at clean
    have none : (later.map EpochEnv.calls).flatten.countP isFileMmap = 0 := by
      rw [List.countP_flatten]
      refine List.sum_eq_zero fun count member => ?_
      obtain ⟨calls, listed, rfl⟩ := List.mem_map.mp member
      obtain ⟨env, inside, rfl⟩ := List.mem_map.mp listed
      have := clean env inside
      have := mapsFile_le_lost env
      rw [countP_epoch]
      omega
    rw [calls, shape, epochs_eq_map, List.map_cons, List.flatten_cons, List.countP_append, none, countP_epoch]
    exact Bool.toNat_le _

/-- Resources leak exactly when an epoch after the first one maps its fuzz file, or is given the
    descriptor 0 for a segment. -/
theorem noLeak_iff : r.NoLeak ↔ ∀ env ∈ r.envs.tail, env.lost = 0 := by
  have sizes : ∀ k, (r.after (k + 1)).size = (r.after 1).size + ((r.envs.tail.take k).map EpochEnv.lost).sum := by
    intro k
    rw [size_after, size_after]
    cases r.envs with
    | nil => simp
    | cons first later => rfl
  constructor
  · intro noLeak env member
    have nonempty := List.length_pos_of_mem (List.mem_of_mem_tail member)
    have whole := noLeak.size (r.envs.tail.length + 1) (Nat.le_add_left 1 _) (by rw [List.length_tail]; omega)
    rw [sizes, List.take_length] at whole
    have zero : (r.envs.tail.map EpochEnv.lost).sum = 0 := Nat.add_eq_left.mp whole
    exact List.sum_eq_zero_iff.mp zero _ (List.mem_map_of_mem member)
  · intro clean
    constructor
    · intro k low high
      obtain ⟨k, rfl⟩ : ∃ j, k = j + 1 := ⟨k - 1, by omega⟩
      have zero : ((r.envs.tail.take k).map EpochEnv.lost).sum = 0 := by
        refine List.sum_eq_zero fun lost member => ?_
        obtain ⟨env, taken, rfl⟩ := List.mem_map.mp member
        exact clean env (List.mem_of_mem_take taken)
      rw [sizes, zero, Nat.add_zero]
    · intro moment start
      calc (Host.run ⟨[], []⟩ moment).fileMappings
        _ ≤ 0 + moment.countP isFileMmap := fileMappings_run_le _ _
        _ ≤ r.calls.countP isFileMmap := by
          rw [Nat.zero_add]
          exact start.sublist.countP_le
        _ ≤ 1 := r.countP_calls_le_one clean

end EpochRun

/-- An epoch without retries, in which the file is opened and mapped at the address. -/
def plainEpoch (addr : Nat) : EpochEnv := ⟨[], 3, 100, some 4, some (4, some addr)⟩

def twoEpochs : EpochRun where
  envs := [plainEpoch 200, plainEpoch 300]
  admissible := by
    simp [epochs_eq_map, plainEpoch, EpochEnv.calls_eq, streamCalls, fileCalls, closeFile, SHM.close, Admissible, Fresh,
      Host.apply]

/-- After two epochs the mappings of both files are live. -/
theorem not_noLeak_twoEpochs : ¬ twoEpochs.NoLeak := by
  intro noLeak
  exact absurd (noLeak.size 2 (by decide) (by decide)) (by decide)

end DevFuzz.Aplib
