import Mathlib.Algebra.Order.BigOperators.Group.List
import DevFuzz.Probe.Replay

/-! # Restarting a generated model

`restart_device` resets the member `probe_len` but none of the function-static
counters.  The state after any sequence of reads has a closed form
(`HWModel.after_running`): the counter of a block is the number of probe-phase
reads that entered the `switch` at the block or above it.

A restart is therefore invisible exactly when no probe-phase read before it
passed a block that can still write (`restartsClean_iff`).
-/

namespace DevFuzz.Probe

open DevFuzz.Lib.Bytes

/-! ## The state in closed form -/

/-- The blocks of a model, the `i`-th of them with the counter `counts i`. -/
def liveBlocks : List (CaseBlock UInt64) → (Nat → Nat) → List LiveBlock
  | [], _ => []
  | block :: blocks, counts => ⟨block, counts 0⟩ :: liveBlocks blocks fun i => counts (i + 1)

/-- The emitted code with its counters and its `probe_len`. -/
def HWModel.running (code : ProbeModel UInt64) (counts : Nat → Nat) (probeLen : Nat) : HWModel where
  limit := code.probeLen
  probeLen := probeLen
  blocks := liveBlocks code.blocks counts

/-- Where a read enters the `switch`; past the last block when no `case` matches. -/
def entryOf (blocks : List (CaseBlock UInt64)) (addr : UInt64) : Nat :=
  blocks.findIdx fun block => block.addr == addr

/-- A pass that enters at `entry` runs every block from there on. -/
def advance (entry : Nat) (counts : Nat → Nat) (i : Nat) : Nat :=
  if entry ≤ i then counts i + 1 else counts i

theorem liveBlocks_zero (blocks : List (CaseBlock UInt64)) :
    liveBlocks blocks (fun _ => 0) = blocks.map fun block => ⟨block, 0⟩ := by
  induction blocks with
  | nil => rfl
  | cons block blocks ih => simp [liveBlocks, ih]

theorem liveBlocks_succ (blocks : List (CaseBlock UInt64)) (counts : Nat → Nat) :
    liveBlocks blocks (fun i => counts i + 1) =
      (liveBlocks blocks counts).map fun live => { live with cnt := live.cnt + 1 } := by
  induction blocks generalizing counts with
  | nil => rfl
  | cons block blocks ih => simp [liveBlocks, ih]

theorem liveBlocks_append (above below : List (CaseBlock UInt64)) (counts : Nat → Nat) :
    liveBlocks (above ++ below) counts =
      liveBlocks above counts ++ liveBlocks below fun i => counts (above.length + i) := by
  induction above generalizing counts with
  | nil => simp [liveBlocks]
  | cons block above ih => simp [liveBlocks, ih, Nat.add_right_comm]

theorem HWModel.fresh_eq_running (code : ProbeModel UInt64) :
    HWModel.fresh code = HWModel.running code (fun _ => 0) 0 := by
  simp [HWModel.fresh, HWModel.running, liveBlocks_zero]

theorem HWModel.restartDevice_running (code : ProbeModel UInt64) (counts : Nat → Nat)
    (probeLen : Nat) :
    (HWModel.running code counts probeLen).restartDevice = HWModel.running code counts 0 := rfl

theorem entryOf_cons_self {addr : UInt64} {block : CaseBlock UInt64} (selected : block.addr = addr)
    (blocks : List (CaseBlock UInt64)) : entryOf (block :: blocks) addr = 0 := by
  simp [entryOf, List.findIdx_cons, selected]

theorem entryOf_cons_ne {addr : UInt64} {block : CaseBlock UInt64} (different : block.addr ≠ addr)
    (blocks : List (CaseBlock UInt64)) :
    entryOf (block :: blocks) addr = entryOf blocks addr + 1 := by
  simp [entryOf, List.findIdx_cons, beq_false_of_ne different]

theorem switch_liveBlocks (addr : UInt64) (blocks : List (CaseBlock UInt64)) (counts : Nat → Nat)
    (dest : Memory) :
    (switch addr (liveBlocks blocks counts) dest).1 =
      liveBlocks blocks (advance (entryOf blocks addr) counts) := by
  induction blocks generalizing counts with
  | nil => rfl
  | cons block blocks ih =>
    by_cases selected : block.addr = addr
    · -- entered here: this block and all below it count up
      have all : advance 0 counts = fun i => counts i + 1 := by
        funext i
        simp [advance]
      rw [entryOf_cons_self selected, all, liveBlocks_succ, liveBlocks, switch]
      simp only [selected, if_true, fallThrough_blocks]
    · -- above the entry: the counter of this block stays
      have shifted : (fun i => advance (entryOf blocks addr + 1) counts (i + 1)) =
          advance (entryOf blocks addr) fun i => counts (i + 1) := by
        funext i
        simp [advance]
      have above : advance (entryOf blocks addr + 1) counts 0 = counts 0 := by simp [advance]
      simp [liveBlocks, switch, selected, ih, entryOf_cons_ne selected, shifted, above]

/-- One probe-phase read, on the closed form. -/
theorem HWModel.read_running {code : ProbeModel UInt64} {counts : Nat → Nat} {probeLen : Nat}
    (probing : probeLen ≤ code.probeLen) (dest : Memory) (addr : UInt64) (size : Nat) :
    (HWModel.running code counts probeLen).read dest addr size =
      (⟨size, (switch addr (liveBlocks code.blocks counts) dest).2⟩,
        HWModel.running code (advance (entryOf code.blocks addr) counts) (probeLen + 1)) := by
  rw [HWModel.read_of_probing probing]
  simp [HWModel.running, switch_liveBlocks]

/-- How many of the requests pass the block at position `i`. -/
def passes (blocks : List (CaseBlock UInt64)) (requests : List Request) (i : Nat) : Nat :=
  requests.countP fun request => entryOf blocks request.addr ≤ i

/-- The state after any sequence of reads: only the first `limit + 1 - probeLen` of them count. -/
theorem HWModel.after_running (code : ProbeModel UInt64) (counts : Nat → Nat) (probeLen : Nat)
    (requests : List Request) :
    (HWModel.running code counts probeLen).after requests =
      HWModel.running code
        (fun i => counts i + passes code.blocks (requests.take (code.probeLen + 1 - probeLen)) i)
        (probeLen + (requests.take (code.probeLen + 1 - probeLen)).length) := by
  induction requests generalizing counts probeLen with
  | nil => simp [passes]
  | cons request requests ih =>
    rw [HWModel.after_cons]
    -- once `probe_len` has passed the limit a read returns 0 and changes nothing
    by_cases probing : probeLen ≤ code.probeLen
    · have taken : code.probeLen + 1 - probeLen = (code.probeLen + 1 - (probeLen + 1)) + 1 := by omega
      rw [HWModel.read_running probing, ih, taken, List.take_succ_cons]
      congr 1
      · funext i
        by_cases passed : entryOf code.blocks request.addr ≤ i
        · simp [advance, passes, passed]
          omega
        · simp [advance, passes, passed]
      · simp only [List.length_cons]
        omega
    · have done : (HWModel.running code counts probeLen).probeLen >
          (HWModel.running code counts probeLen).limit := Nat.lt_of_not_le probing
      have none : code.probeLen + 1 - probeLen = 0 := by omega
      rw [HWModel.read_of_done done, ih, none]
      simp [passes]

/-- The `i`-th answer is the one the model gives after the first `i` requests. -/
theorem HWModel.reads_getElem? (model : HWModel) (requests : List Request) (i : Nat) :
    (model.reads requests).1[i]? = requests[i]?.map fun request =>
      ((model.after (requests.take i)).read request.dest request.addr request.size).1 := by
  induction requests generalizing model i with
  | nil => simp [HWModel.reads]
  | cons request requests ih =>
    cases i with
    | zero => simp [HWModel.reads]
    | succ i => simpa [HWModel.reads] using ih _ i

/-! ## Counters that no block can tell apart -/

/-- The counters of all blocks with an assignment are equal. -/
def SameWhereWriting (blocks : List (CaseBlock UInt64)) (counts counts' : Nat → Nat) : Prop :=
  ∀ i block, blocks[i]? = some block → block.assigns ≠ [] → counts i = counts' i

theorem SameWhereWriting.tail {block : CaseBlock UInt64} {blocks : List (CaseBlock UInt64)}
    {counts counts' : Nat → Nat} (same : SameWhereWriting (block :: blocks) counts counts') :
    SameWhereWriting blocks (fun i => counts (i + 1)) fun i => counts' (i + 1) :=
  fun i other found writes => same (i + 1) other (by simpa using found) writes

theorem SameWhereWriting.advance {blocks : List (CaseBlock UInt64)} {counts counts' : Nat → Nat}
    (same : SameWhereWriting blocks counts counts') (entry : Nat) :
    SameWhereWriting blocks (advance entry counts) (advance entry counts') := by
  intro i block found writes
  simp [Probe.advance, same i block found writes]

theorem SameWhereWriting.body {block : CaseBlock UInt64} {blocks : List (CaseBlock UInt64)}
    {counts counts' : Nat → Nat} (same : SameWhereWriting (block :: blocks) counts counts')
    (dest : Memory) :
    runAssigns block.assigns (counts 0) dest = runAssigns block.assigns (counts' 0) dest := by
  by_cases silent : block.assigns = []
  · simp [silent, runAssigns]
  · rw [same 0 block rfl silent]

theorem SameWhereWriting.fallThrough {blocks : List (CaseBlock UInt64)} {counts counts' : Nat → Nat}
    (same : SameWhereWriting blocks counts counts') (dest : Memory) :
    (fallThrough (liveBlocks blocks counts) dest).2 =
      (fallThrough (liveBlocks blocks counts') dest).2 := by
  induction blocks generalizing counts counts' dest with
  | nil => rfl
  | cons block blocks ih =>
    simp only [liveBlocks, Probe.fallThrough, LiveBlock.body, same.body dest]
    exact ih same.tail _

theorem SameWhereWriting.switch {blocks : List (CaseBlock UInt64)} {counts counts' : Nat → Nat}
    (same : SameWhereWriting blocks counts counts') (addr : UInt64) (dest : Memory) :
    (switch addr (liveBlocks blocks counts) dest).2 =
      (switch addr (liveBlocks blocks counts') dest).2 := by
  induction blocks generalizing counts counts' with
  | nil => rfl
  | cons block blocks ih =>
    by_cases selected : block.addr = addr
    · simpa [liveBlocks, Probe.switch, selected] using same.fallThrough dest
    · simpa [liveBlocks, Probe.switch, selected] using ih same.tail

theorem SameWhereWriting.reads {code : ProbeModel UInt64} {counts counts' : Nat → Nat}
    (same : SameWhereWriting code.blocks counts counts') (probeLen : Nat) (requests : List Request) :
    ((HWModel.running code counts probeLen).reads requests).1 =
      ((HWModel.running code counts' probeLen).reads requests).1 := by
  induction requests generalizing counts counts' probeLen with
  | nil => rfl
  | cons request requests ih =>
    by_cases probing : probeLen ≤ code.probeLen
    · simp only [HWModel.reads, HWModel.read_running probing, same.switch,
        ih (same.advance _) (probeLen + 1)]
    · have done : ∀ counts, (HWModel.running code counts probeLen).probeLen >
          (HWModel.running code counts probeLen).limit := fun _ => Nat.lt_of_not_le probing
      simp only [HWModel.reads, HWModel.read_of_done (done _), ih same probeLen]

/-! ## A counter that a block can tell apart -/

/-- The last element with a property splits the list. -/
theorem exists_last {α : Type} (p : α → Prop) {list : List α} {x : α} (member : x ∈ list)
    (holds : p x) :
    ∃ front last back, list = front ++ last :: back ∧ p last ∧ ∀ y ∈ back, ¬ p y := by
  classical
  have found : (list.reverse.find? fun y => p y).isSome := by
    rw [List.find?_isSome]
    exact ⟨x, by simpa using member, by simpa using holds⟩
  obtain ⟨last, lastFound⟩ := Option.isSome_iff_exists.mp found
  obtain ⟨lastHolds, back, front, split, rest⟩ := List.find?_eq_some_iff_append.mp lastFound
  refine ⟨front.reverse, last, back.reverse, ?_, by simpa using lastHolds, ?_⟩
  · have := congrArg List.reverse split
    simpa using this
  · intro y yMember
    simpa using rest y (by simpa using yMember)

theorem fallThrough_silent {blocks : List (CaseBlock UInt64)}
    (silent : ∀ block ∈ blocks, block.assigns = []) (counts : Nat → Nat) (dest : Memory) :
    (fallThrough (liveBlocks blocks counts) dest).2 = dest := by
  induction blocks generalizing counts dest with
  | nil => rfl
  | cons block blocks ih =>
    have none : block.assigns = [] := silent block List.mem_cons_self
    simp only [liveBlocks, fallThrough, LiveBlock.body, none, runAssigns, List.foldl_nil]
    exact ih (fun other member => silent other (List.mem_cons_of_mem _ member)) _ _

theorem mem_liveBlocks {live : LiveBlock} {blocks : List (CaseBlock UInt64)} {counts : Nat → Nat}
    (member : live ∈ liveBlocks blocks counts) : live.block ∈ blocks := by
  induction blocks generalizing counts with
  | nil => simp [liveBlocks] at member
  | cons block blocks ih =>
    rcases List.mem_cons.mp member with rfl | later
    · exact List.mem_cons_self
    · exact List.mem_cons_of_mem _ (ih later)

/-- A read of the last block that writes: its own counter alone decides what is written. -/
theorem switch_lastWriting {above below : List (CaseBlock UInt64)} {block : CaseBlock UInt64}
    (first : ∀ other ∈ above, other.addr ≠ block.addr) (silent : ∀ other ∈ below, other.assigns = [])
    (counts : Nat → Nat) (dest : Memory) :
    (switch block.addr (liveBlocks (above ++ block :: below) counts) dest).2 =
      runAssigns block.assigns (counts above.length) dest := by
  have firstLive : ∀ live ∈ liveBlocks above counts, live.block.addr ≠ block.addr :=
    fun live member => first live.block (mem_liveBlocks member)
  rw [liveBlocks_append, liveBlocks, switch_eq_fallThrough dest firstLive rfl]
  simp only [fallThrough, LiveBlock.body, fallThrough_silent silent, Nat.add_zero]

theorem entryOf_append {above below : List (CaseBlock UInt64)} {block : CaseBlock UInt64}
    (first : ∀ other ∈ above, other.addr ≠ block.addr) :
    entryOf (above ++ block :: below) block.addr = above.length := by
  induction above with
  | nil => exact entryOf_cons_self rfl below
  | cons other above ih =>
    rw [List.cons_append, entryOf_cons_ne (first other List.mem_cons_self),
      ih fun other member => first other (List.mem_cons_of_mem _ member), List.length_cons]

/-- After `n` probe-phase reads of the last writing block, the next one is answered by the
    assignments for the block's counter plus `n`. -/
theorem read_lastWriting {code : ProbeModel UInt64} {above below : List (CaseBlock UInt64)}
    {block : CaseBlock UInt64} (split : code.blocks = above ++ block :: below)
    (first : ∀ other ∈ above, other.addr ≠ block.addr) (silent : ∀ other ∈ below, other.assigns = [])
    (counts : Nat → Nat) {n : Nat} (probing : n ≤ code.probeLen) (dest : Memory) :
    ((HWModel.running code counts 0).reads (List.replicate (n + 1) ⟨block.addr, 1, dest⟩)).1[n]? =
      some ⟨1, runAssigns block.assigns (counts above.length + n) dest⟩ := by
  have entered : entryOf code.blocks block.addr = above.length := by
    rw [split]
    exact entryOf_append first
  -- the `n` reads before the last one all enter at the block itself
  rw [HWModel.reads_getElem?, HWModel.after_running]
  simp only [List.take_replicate, List.getElem?_replicate, List.length_replicate, Nat.zero_add,
    Nat.sub_zero]
  rw [if_pos (by omega), Option.map_some, HWModel.read_running (by omega), split,
    switch_lastWriting first silent]
  simp only [passes, List.countP_replicate, ← split, entered]
  simp
  congr 2
  omega

/-! ## What a block writes, and when -/

/-- The sizes `generate_code_block` has a case for. -/
def Writes (entry : Int × Int) : Prop := entry.1 = 1 ∨ entry.1 = 2 ∨ entry.1 = 4

theorem storeEntry_of_not_writes {entry : Int × Int} (silent : ¬ Writes entry) (dest : Memory) :
    storeEntry dest (some entry) = dest := by
  obtain ⟨size, value⟩ := entry
  exact if_neg silent

theorem generateAssigns_eq_nil (k : Nat) {values : List (Int × Int)}
    (silent : ∀ entry ∈ values, ¬ Writes entry) : generateAssigns k values = [] := by
  induction values generalizing k with
  | nil => rfl
  | cons entry values ih =>
    obtain ⟨size, value⟩ := entry
    have here : ¬ (size = 1 ∨ size = 2 ∨ size = 4) := silent (size, value) List.mem_cons_self
    simp only [not_or] at here
    rw [generateAssigns, ih _ fun entry member => silent entry (List.mem_cons_of_mem _ member)]
    simp [generateAssign, here]

/-- A store changes a byte that differs from the stored one. -/
theorem exists_storeEntry_ne {entry : Int × Int} (writes : Writes entry) :
    ∃ dest, storeEntry dest (some entry) ≠ dest := by
  obtain ⟨size, value⟩ := entry
  have positive : 0 < size.toNat := by
    rcases writes with one | two | four <;> simp_all
  -- fill the memory with a byte other than the first one stored
  refine ⟨fun _ => byteOf (value % 256 ^ size.toNat).toNat 0 + 1, ?_⟩
  intro unchanged
  have byte := congrFun unchanged 0
  unfold Writes at writes
  rw [storeEntry, if_pos writes, storeLE_of_lt _ (le_refl 0) (by omega)] at byte
  simp at byte

/-- The counter of a block that writes is observable: some reading shows that it has moved. -/
theorem generateCodeBlock_observable {addr : UInt64} {values : List (Int × Int)}
    (writes : (generateCodeBlock addr values).assigns ≠ []) :
    ∃ n < values.length, ∃ dest, ∀ moved, 0 < moved →
      runAssigns (generateCodeBlock addr values).assigns n dest ≠
        runAssigns (generateCodeBlock addr values).assigns (moved + n) dest := by
  obtain ⟨entry, member, writing⟩ : ∃ entry ∈ values, Writes entry := by
    by_contra none
    push Not at none
    exact writes (generateAssigns_eq_nil 0 none)
  -- the last entry that is written: past it every counter leaves `dest` alone
  obtain ⟨front, last, back, rfl, lastWrites, silent⟩ := exists_last Writes member writing
  obtain ⟨dest, changes⟩ := exists_storeEntry_ne lastWrites
  refine ⟨front.length, by simp, dest, ?_⟩
  intro moved positive
  have past : storeEntry dest (front ++ last :: back)[moved + front.length]? = dest := by
    obtain ⟨moved, rfl⟩ := Nat.exists_eq_succ_of_ne_zero (Nat.pos_iff_ne_zero.mp positive)
    rw [List.getElem?_append_right (by omega), Nat.add_sub_cancel, List.getElem?_cons_succ]
    cases found : back[moved]? with
    | none => rfl
    | some entry => exact storeEntry_of_not_writes (silent entry (List.mem_of_getElem? found)) dest
  simp only [generateCodeBlock, runAssigns_generateAssigns, Nat.zero_le, if_true, Nat.sub_zero, past]
  simpa using changes

/-! ## The dictionary of a trace -/

theorem nodup_ofTrace (records : List Recorded) : ((RegModel.ofTrace records).map Prod.fst).Nodup := by
  have step : ∀ (model : RegModel UInt64), (model.map Prod.fst).Nodup →
      ((records.foldl (fun model r => model.record r.addr r.entry) model).map Prod.fst).Nodup := by
    induction records with
    | nil => exact fun _ nodup => nodup
    | cons r records ih => exact fun _ nodup => ih _ (nodup_record nodup r.addr r.entry)
  exact step [] List.nodup_nil

theorem probeLen_record (model : RegModel UInt64) (addr : UInt64) (entry : Int × Int) :
    (codegen (model.record addr entry)).probeLen = (codegen model).probeLen + 1 := by
  simp only [codegen]
  induction model with
  | nil => simp [RegModel.record]
  | cons head rest ih =>
    obtain ⟨key, entries⟩ := head
    by_cases same : key = addr
    · simp [RegModel.record, same]
      omega
    · simp [RegModel.record, same, ih]
      omega

/-- `<PROBE_LEN>` is the number of recorded reads. -/
theorem probeLen_ofTrace (records : List Recorded) :
    (codegen (RegModel.ofTrace records)).probeLen = records.length := by
  have step : ∀ (model : RegModel UInt64),
      (codegen (records.foldl (fun model r => model.record r.addr r.entry) model)).probeLen =
        (codegen model).probeLen + records.length := by
    induction records with
    | nil => exact fun _ => rfl
    | cons r records ih =>
      intro model
      rw [List.foldl_cons, ih, probeLen_record, List.length_cons]
      omega
  simpa [codegen, RegModel.ofTrace] using step []

/-- A dictionary has one block per address. -/
theorem addr_ne_of_split {model : RegModel UInt64} (nodup : (model.map Prod.fst).Nodup)
    {above below : List (CaseBlock UInt64)} {block : CaseBlock UInt64}
    (split : (codegen model).blocks = above ++ block :: below) :
    ∀ other ∈ above, other.addr ≠ block.addr := by
  have keys : (codegen model).blocks.map CaseBlock.addr = model.map Prod.fst := by
    simp [codegen, generateCodeBlock, Function.comp_def]
  rw [← keys, split, List.map_append, List.map_cons, List.nodup_append] at nodup
  intro other member equal
  exact nodup.2.2 other.addr (List.mem_map_of_mem member) block.addr List.mem_cons_self equal

/-- Every block comes from an entry no longer than `<PROBE_LEN>`. -/
theorem exists_entry_of_mem {model : RegModel UInt64} {block : CaseBlock UInt64}
    (member : block ∈ (codegen model).blocks) :
    ∃ values, block = generateCodeBlock block.addr values ∧
      values.length ≤ (codegen model).probeLen := by
  obtain ⟨⟨addr, values⟩, entryMember, rfl⟩ := List.mem_map.mp member
  exact ⟨values, rfl, List.le_sum_of_mem (List.mem_map_of_mem entryMember)⟩

/-! ## The restart -/

/-- Whatever was read before it, a restart makes the model answer like a fresh one. -/
def RestartsClean (records : List Recorded) (first : List Request) : Prop :=
  ∀ second : List Request,
    (((HWModel.ofTrace records).after first).restartDevice.reads second).1 =
      ((HWModel.ofTrace records).reads second).1

/-- No block that a read of `addr` passes has an assignment. -/
def SilentFrom (blocks : List (CaseBlock UInt64)) (addr : UInt64) : Prop :=
  ∀ block ∈ blocks.drop (entryOf blocks addr), block.assigns = []

/-- The counters a restart leaves behind. -/
theorem restart_eq_running (records : List Recorded) (first : List Request) :
    ((HWModel.ofTrace records).after first).restartDevice =
      HWModel.running (codegen (RegModel.ofTrace records))
        (passes (codegen (RegModel.ofTrace records)).blocks (first.take (records.length + 1))) 0 := by
  rw [HWModel.ofTrace, HWModel.fresh_eq_running, HWModel.after_running,
    HWModel.restartDevice_running, probeLen_ofTrace]
  simp

theorem restartsClean_of_silent {records : List Recorded} {first : List Request}
    (silent : ∀ request ∈ first.take (records.length + 1),
      SilentFrom (codegen (RegModel.ofTrace records)).blocks request.addr) :
    RestartsClean records first := by
  intro second
  rw [restart_eq_running, HWModel.ofTrace, HWModel.fresh_eq_running]
  apply SameWhereWriting.reads
  -- a counter that has moved belongs to a block that some read passed
  intro i block found writes
  rw [passes, List.countP_eq_zero]
  intro request member passed
  have dropped : block ∈ (codegen (RegModel.ofTrace records)).blocks.drop
      (entryOf (codegen (RegModel.ofTrace records)).blocks request.addr) := by
    apply List.mem_of_getElem?
    rw [List.getElem?_drop, Nat.add_sub_cancel' (by simpa using passed)]
    exact found
  exact writes (silent request member block dropped)

theorem mem_of_mem_drop_past {α : Type} {front back : List α} {last x : α} {n : Nat}
    (past : front.length < n) (member : x ∈ (front ++ last :: back).drop n) : x ∈ back := by
  rw [List.append_cons, List.drop_append,
    List.drop_eq_nil_of_le (by simp only [List.length_append, List.length_singleton]; omega)] at member
  exact List.mem_of_mem_drop (by simpa using member)

theorem not_restartsClean_of_writing {records : List Recorded} {first : List Request}
    {request : Request} (member : request ∈ first.take (records.length + 1))
    (writing : ¬ SilentFrom (codegen (RegModel.ofTrace records)).blocks request.addr) :
    ¬ RestartsClean records first := by
  intro clean
  obtain ⟨block, dropped, writes⟩ : ∃ block ∈ (codegen (RegModel.ofTrace records)).blocks.drop
      (entryOf (codegen (RegModel.ofTrace records)).blocks request.addr), block.assigns ≠ [] := by
    simpa [SilentFrom] using writing
  -- the last writing block is passed whenever any writing block is
  obtain ⟨above, last, below, split, lastWrites, silent⟩ :=
    exists_last (fun block : CaseBlock UInt64 => block.assigns ≠ []) (List.mem_of_mem_drop dropped)
      writes
  simp only [not_not] at silent
  have passed : entryOf (codegen (RegModel.ofTrace records)).blocks request.addr ≤ above.length := by
    by_contra beyond
    generalize entryOf (codegen (RegModel.ofTrace records)).blocks request.addr = entry at *
    rw [split] at dropped
    exact writes (silent block (mem_of_mem_drop_past (by omega) dropped))
  have moved : 0 < passes (codegen (RegModel.ofTrace records)).blocks
      (first.take (records.length + 1)) above.length :=
    List.countP_pos_iff.mpr ⟨request, member, by simpa using passed⟩
  have lastMember : last ∈ (codegen (RegModel.ofTrace records)).blocks := by simp [split]
  obtain ⟨values, shape, short⟩ := exists_entry_of_mem lastMember
  rw [shape] at lastWrites
  obtain ⟨n, bound, dest, differs⟩ := generateCodeBlock_observable lastWrites
  rw [← shape] at differs
  -- enough reads of the last writing block to reach its last entry tell the two models apart
  have same := congrArg (·[n]?) (clean (List.replicate (n + 1) ⟨last.addr, 1, dest⟩))
  have only := addr_ne_of_split (nodup_ofTrace records) split
  rw [restart_eq_running, HWModel.ofTrace, HWModel.fresh_eq_running] at same
  simp only [read_lastWriting split only silent _ (show n ≤ _ by omega), Option.some.injEq,
    Answer.mk.injEq, true_and, Nat.zero_add] at same
  exact differs _ moved same.symm

/-- A restart is clean exactly when no read of the probe phase before it passed a block that
    writes. -/
theorem restartsClean_iff (records : List Recorded) (first : List Request) :
    RestartsClean records first ↔
      ∀ request ∈ first.take (records.length + 1),
        SilentFrom (codegen (RegModel.ofTrace records)).blocks request.addr := by
  constructor
  · intro clean request member
    by_contra writing
    exact not_restartsClean_of_writing member writing clean
  · exact restartsClean_of_silent

/-- One register read once: the counter stays at 1 over the restart. -/
theorem not_restartsClean_oneRegister :
    ¬ RestartsClean [⟨0x10, 1, 7, by decide, by decide⟩] [⟨0x10, 1, fun _ => 0⟩] := by
  apply not_restartsClean_of_writing List.mem_cons_self
  intro silent
  have none := silent ⟨0x10, [⟨0, 1, 7⟩]⟩ (by decide)
  exact absurd none (by decide)

end DevFuzz.Probe
