import DevFuzz.Lib.Patch
import DevFuzz.Probe.Restart

/-! # From the recorded probe to fuzz data

A generated model answers the reads of a driver until `probe_len` has passed its
limit; from then on it returns 0 and its caller takes fuzz data.  `read` compares
before it counts, so one read too many is answered (`endsInTime_iff`).  What a read
that is answered has written is decided by the counters, not by the size that was
asked for (`fillsRequested_iff`).
-/

namespace DevFuzz.Probe

open DevFuzz.Lib DevFuzz.Lib.Bytes

/-! ## Histories -/

inductive Call where
  | read (request : Request)
  | restart

def HWModel.call (model : HWModel) : Call → HWModel
  | .read request => (model.read request.dest request.addr request.size).2
  | .restart => model.restartDevice

/-- A model after reads and restarts. -/
def HWModel.calls (model : HWModel) (history : List Call) : HWModel := history.foldl HWModel.call model

/-- The number of reads since the last restart. -/
def callsSince (history : List Call) : Nat :=
  history.foldl (fun count call => match call with
    | .read _ => count + 1
    | .restart => 0) 0

/-- A read of a driver. -/
structure GuestRead extends Request where
  size_mem : size ∈ [1, 2, 4, 8]

theorem GuestRead.size_ne_zero (request : GuestRead) : request.size ≠ 0 := by
  intro zero
  have := request.size_mem
  simp [zero] at this

/-! ## How long the probe lasts -/

/-- `probe_len` counts the reads since the last restart, and stops behind the limit. -/
structure Counts (bound count : Nat) (model : HWModel) : Prop where
  limit : model.limit = bound
  probeLen : model.probeLen = min count (bound + 1)

theorem Counts.read {bound count : Nat} {model : HWModel} (counted : Counts bound count model) (request : Request) :
    Counts bound (count + 1) (model.call (.read request)) := by
  obtain ⟨same, length⟩ := counted
  rcases Nat.lt_or_ge model.limit model.probeLen with done | probing
  · rw [HWModel.call, HWModel.read_of_done done]
    exact ⟨same, show model.probeLen = _ by omega⟩
  · rw [HWModel.call, HWModel.read_of_probing probing]
    exact ⟨same, show model.probeLen + 1 = _ by omega⟩

theorem counts_calls (code : ProbeModel UInt64) (history : List Call) :
    Counts code.probeLen (callsSince history) ((HWModel.fresh code).calls history) := by
  induction history using List.reverseRecOn with
  | nil => exact ⟨rfl, by simp [callsSince, HWModel.calls, HWModel.fresh]⟩
  | append_singleton history call ih =>
    rw [HWModel.calls, callsSince, List.foldl_append, List.foldl_append]
    cases call with
    | read request => exact ih.read request
    | restart => exact ⟨ih.limit, by simp [HWModel.call, HWModel.restartDevice]⟩

/-- A read is answered exactly as long as `probe_len` has not passed the limit. -/
theorem ret_calls (code : ProbeModel UInt64) (history : List Call) (dest : Memory) (addr : UInt64) (size : Nat) :
    (((HWModel.fresh code).calls history).read dest addr size).1.ret =
      if callsSince history ≤ code.probeLen then size else 0 := by
  obtain ⟨limit, length⟩ := counts_calls code history
  split_ifs with early
  · rw [HWModel.read_of_probing (by omega)]
  · rw [HWModel.read_of_done (by omega)]

/-- A read is answered as long as the recording had reads. -/
def EndsInTime (records : List Recorded) (history : List Call) (request : GuestRead) : Prop :=
  (((HWModel.ofTrace records).calls history).read request.dest request.addr request.size).1.ret ≠ 0 ↔
    callsSince history < records.length

/-- The read that follows the recorded ones is answered as well; every other read is as it should be. -/
theorem endsInTime_iff (records : List Recorded) (history : List Call) (request : GuestRead) :
    EndsInTime records history request ↔ callsSince history ≠ records.length := by
  have sized := request.size_ne_zero
  rw [EndsInTime, HWModel.ofTrace, ret_calls, probeLen_ofTrace]
  split_ifs with early
  · constructor
    · intro ends
      exact Nat.ne_of_lt (ends.mp sized)
    · intro different
      exact iff_of_true sized (by omega)
  · exact iff_of_true (by simp; omega) (by omega)

/-- A recording of one read. -/
def oneRead : List Recorded := [⟨0x10, 4, 0x1234, by decide, by decide⟩]

/-- A model made from one read answers a second one. -/
theorem not_endsInTime_oneRead :
    ¬ EndsInTime oneRead [.read ⟨0x10, 4, fun _ => 0⟩] ⟨⟨0x10, 4, fun _ => 0⟩, by decide⟩ := by
  intro ends
  have answered : (((HWModel.ofTrace oneRead).calls [.read ⟨0x10, 4, fun _ => 0⟩]).read (fun _ => 0) 0x10 4).1.ret = 4 := by
    rfl
  have early := ends.mp (by rw [answered]; decide)
  exact absurd early (by decide)

/-! ## What a read writes -/

/-- How many bytes an assignment writes when the counter is `cnt`. -/
def Assign.stored (cnt : Nat) (assign : Assign) : Nat := if assign.cnt = cnt then assign.width else 0

/-- How many bytes the stores of a block write: all of them start at `dest`. -/
def LiveBlock.stored (live : LiveBlock) : Nat := (live.block.assigns.map (Assign.stored live.cnt)).foldr max 0

def widest (blocks : List LiveBlock) : Nat := (blocks.map LiveBlock.stored).foldr max 0

/-- How many bytes a read writes: those of the widest store in the block of the address and the blocks below it. -/
def HWModel.stored (model : HWModel) (addr : UInt64) : Nat :=
  widest (model.blocks.dropWhile fun live => live.block.addr ≠ addr)

theorem overwrites_assign (cnt : Nat) (assign : Assign) :
    Overwrites (fun dest => assign.run cnt dest) fun i => i < assign.stored cnt := by
  unfold Assign.run Assign.stored
  split_ifs
  · exact (Overwrites.storeLE 0 _ _).congr fun i => by simp
  · exact Overwrites.keep.congr fun i => by simp

theorem overwrites_runAssigns (assigns : List Assign) (cnt : Nat) :
    Overwrites (runAssigns assigns cnt) fun i => i < (assigns.map (Assign.stored cnt)).foldr max 0 := by
  induction assigns with
  | nil => exact Overwrites.keep.congr fun i => by simp
  | cons assign assigns ih =>
    refine ((overwrites_assign cnt assign).comp ih).congr fun i => ?_
    simp

theorem overwrites_fallThrough (blocks : List LiveBlock) :
    Overwrites (fun dest => (fallThrough blocks dest).2) fun i => i < widest blocks := by
  induction blocks with
  | nil => exact Overwrites.keep.congr fun i => by simp [widest]
  | cons live rest ih =>
    refine ((overwrites_runAssigns live.block.assigns live.cnt).comp ih).congr fun i => ?_
    simp [widest, LiveBlock.stored]

theorem overwrites_switch (addr : UInt64) (blocks : List LiveBlock) :
    Overwrites (fun dest => (switch addr blocks dest).2)
      fun i => i < widest (blocks.dropWhile fun live => live.block.addr ≠ addr) := by
  induction blocks with
  | nil => exact Overwrites.keep.congr fun i => by simp [widest]
  | cons live rest ih =>
    by_cases here : live.block.addr = addr
    · simpa [switch, here] using overwrites_fallThrough (live :: rest)
    · simpa [switch, here] using ih

/-- If the read is answered, it has written the bytes that were asked for, and no others. -/
def FillsRequested (model : HWModel) (request : GuestRead) : Prop :=
  (model.read request.dest request.addr request.size).1.ret ≠ 0 →
    Overwrites (fun dest => (model.read dest request.addr request.size).1.dest) fun i => i < request.size

/-- A generated model fills what was asked for exactly when the probe is over or the widest of the stores that its
    counters select has the size of the read. -/
theorem fillsRequested_iff (regModel : RegModel UInt64) (history : List Call) (request : GuestRead) :
    FillsRequested ((HWModel.fresh (codegen regModel)).calls history) request ↔
      (codegen regModel).probeLen < callsSince history ∨
        ((HWModel.fresh (codegen regModel)).calls history).stored request.addr = request.size := by
  have := nontrivial_byte
  have sized := request.size_ne_zero
  obtain ⟨limit, length⟩ := counts_calls (codegen regModel) history
  rw [FillsRequested, ret_calls]
  generalize (HWModel.fresh (codegen regModel)).calls history = model at limit length ⊢
  split_ifs with early
  · have probing : model.probeLen ≤ model.limit := by omega
    have written : Overwrites (fun dest => (model.read dest request.addr request.size).1.dest)
        fun i => i < model.stored request.addr := by
      simp only [HWModel.read_of_probing probing]
      exact overwrites_switch request.addr model.blocks
    constructor
    · intro fills
      -- the two sets of bytes start at 0, so they are equal only if they end together
      have same := written.unique (fills sized)
      have := same (model.stored request.addr)
      have := same request.size
      omega
    · rintro (late | exact_) _
      · omega
      · rw [exact_] at written
        exact written
  · exact iff_of_true (fun answered => absurd rfl answered) (.inl (by omega))

/-- A read of another register is answered, and `dest` is left as it was. -/
theorem not_fillsRequested_oneRead :
    ¬ FillsRequested ((HWModel.fresh (codegen (RegModel.ofTrace oneRead))).calls [])
      ⟨⟨0x20, 4, fun _ => 0⟩, by decide⟩ := by
  intro fills
  have := nontrivial_byte
  have kept : Overwrites (fun dest => (((HWModel.fresh (codegen (RegModel.ofTrace oneRead))).calls []).read dest 0x20 4).1.dest)
      fun _ => False := Overwrites.keep
  exact (kept.unique (fills (by decide)) 0).mpr (by decide)

end DevFuzz.Probe
