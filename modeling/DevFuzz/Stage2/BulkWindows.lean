import DevFuzz.Stage2.KeepOriginal

/-! # Windows of the fuzzing input

Without the models, `feedFuzzDMAData` copies a window of the fuzzing input to each
region.  The cursor moves on behind every window, also behind one that there was no room for, so
it may stand behind the end of the input.  The next window starts over then
(`chain_windows`).
-/

namespace DevFuzz.Stage2

open DevFuzz.Lib DevFuzz.Lib.Logged

/-- The window that follows another one: behind it if there is room, or at the start. -/
def Window.Follows (dataSz : Nat) (w next : Window) : Prop :=
  next.start = if w.start + w.region.len + next.region.len ≤ dataSz then w.start + w.region.len else 0

/-- What a window puts into guest memory: the bytes of the input from its start on, and nothing outside of its
    region. -/
structure Window.Fills (data : Nat → UInt8) (w : Window) : Prop where
  covers : ∀ x, (eventWrites data).covers (.bulk w.region w.start) x = true ↔
    ∃ k < w.region.len, x = w.region.addr + UInt64.ofNat k
  value : ∀ k < w.region.len,
    (eventWrites data).value (.bulk w.region w.start) (w.region.addr + UInt64.ofNat k) = data (w.start + k)

/-- The windows of a run without the models. -/
structure BulkWindows (stage2 : Stage2HWModel) (data : Nat → UInt8) (dataSz : Nat) (ws : List Window) : Prop where
  regions : ws.map Window.region = stage2.dmasg
  first : ∀ w ∈ ws.head?, w.start = 0
  next : ws.IsChain (Window.Follows dataSz)
  /-- a region that is too long is not written, and all others are, in their order -/
  run : ∀ s, (stage2.feedFuzzDMAData data dataSz false).run s =
    ((ws.filter fun w => w.region.len ≤ dataSz).map fun w => .bulk w.region w.start, some ((), s))
  fills : ∀ w ∈ ws, w.Fills data
  startsOver : ws.IsChain fun w next => dataSz < w.region.len → next.start = 0
  inside : ∀ w ∈ ws, w.region.len ≤ dataSz → w.start + w.region.len ≤ dataSz

section

variable {dataSz : Nat}

theorem map_region_windows (pos : Nat) (regions : List Region) :
    (windows dataSz pos regions).map Window.region = regions := by
  induction regions generalizing pos with
  | nil => rfl
  | cons region rest ih => rw [windows, List.map_cons, ih]

/-- Wherever the cursor stands, a window starts at it or at the start of the input. -/
theorem head_windows {pos : Nat} {regions : List Region} {w : Window} (head : w ∈ (windows dataSz pos regions).head?) :
    w.start = if pos + w.region.len ≤ dataSz then pos else 0 := by
  cases regions with
  | nil => cases head
  | cons region rest =>
    obtain rfl := Option.some.inj head
    dsimp only
    split_ifs <;> omega

theorem chain_windows (pos : Nat) (regions : List Region) :
    (windows dataSz pos regions).IsChain (Window.Follows dataSz) := by
  induction regions generalizing pos with
  | nil => exact .nil
  | cons region rest ih =>
    rw [windows]
    exact (ih _).cons fun next head => head_windows head

theorem inside_of_mem_windows {pos : Nat} {regions : List Region} {w : Window} (member : w ∈ windows dataSz pos regions)
    (room : w.region.len ≤ dataSz) : w.start + w.region.len ≤ dataSz := by
  induction regions generalizing pos with
  | nil => cases member
  | cons region rest ih =>
    cases member with
    | head =>
      dsimp only at room ⊢
      split_ifs <;> omega
    | tail _ later => exact ih later

/-- There is room for a window exactly if its region is not longer than the input. -/
theorem overflowed_of_mem_windows {pos : Nat} {regions : List Region} {w : Window}
    (member : w ∈ windows dataSz pos regions) : (!w.overflowed dataSz) = decide (w.region.len ≤ dataSz) := by
  rw [Window.overflowed]
  by_cases room : w.region.len ≤ dataSz
  · have := inside_of_mem_windows member room
    simp [room, this]
  · have : dataSz < w.start + w.region.len := by omega
    simp [room, this]

end

theorem Window.fills (data : Nat → UInt8) (w : Window) : w.Fills data := by
  have offset : ∀ k < w.region.len, offsetFrom w.region.addr (w.region.addr + UInt64.ofNat k) = k := by
    intro k inside
    have small := w.region.len_lt
    have difference : w.region.addr + UInt64.ofNat k - w.region.addr = UInt64.ofNat k := by grind
    rw [offsetFrom, difference, UInt64.toNat_ofNat']
    exact Nat.mod_eq_of_lt (by omega)
  constructor
  · intro x
    refine decide_eq_true_iff.trans ⟨fun inside => ⟨_, inside, ?_⟩, ?_⟩
    · rw [offsetFrom, UInt64.ofNat_toNat]
      grind
    · rintro ⟨k, inside, rfl⟩
      rw [offset k inside]
      exact inside
  · intro k inside
    exact congrArg (fun i => data (w.start + i)) (offset k inside)

/-- Every run without the models fills the regions from windows of the input, one behind the other and from the
    start again where there is no room. -/
theorem bulkWindows (stage2 : Stage2HWModel) (data : Nat → UInt8) (dataSz : Nat) :
    ∃ ws, BulkWindows stage2 data dataSz ws := by
  refine ⟨windows dataSz 0 stage2.dmasg, map_region_windows 0 _, ?_, chain_windows 0 _, ?_, fun w _ => w.fills data, ?_,
    fun w => inside_of_mem_windows⟩
  · intro w head
    rw [head_windows head]
    exact ite_self 0
  · intro s
    rw [Stage2HWModel.feedFuzzDMAData, feedRegions_eq, run_feedWindows_raw,
      List.filter_congr fun w => overflowed_of_mem_windows]
  · -- behind a region that is too long there is no room for another one
    refine (chain_windows 0 _).imp fun w next follows long => ?_
    rw [follows, if_neg (by omega)]

end DevFuzz.Stage2
