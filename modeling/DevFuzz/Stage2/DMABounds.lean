import DevFuzz.Stage2.DMA

/-! # What `feedFuzzDMAData` touches

Every model is applied to every region, whatever its length.  A structure that
divides the region is repeated inside it, but one that is longer than the region is
applied once, so a field that lies behind the end of the region is written to
memory the region does not own.
-/

namespace DevFuzz.Stage2

open DevFuzz.Lib DevFuzz.Lib.Logged

/-! ## Bounds -/

/-- The byte at `a` lies in `[addr, addr + len)`; addresses wrap around. -/
def Region.Contains (region : Region) (a : UInt64) : Prop := (a - region.addr).toNat < region.len

/-- Guest memory is written inside the region being filled, the fuzzing input is read inside its
    `dataSz` bytes. -/
def Event.InBounds (dataSz : Nat) : Event → Prop
  | .bulk region start =>
    ∀ j < region.len, region.Contains (region.addr + UInt64.ofNat j) ∧ start + j < dataSz
  | .fetch index => index < dataSz
  | .apply region field i _ =>
    ∀ j < field.input.nBytes, region.Contains (region.addr + UInt64.ofNat (field.place i + j))

theorem Region.contains_iff (region : Region) {n : Nat} (small : n < 18446744073709551616) :
    region.Contains (region.addr + UInt64.ofNat n) ↔ n < region.len := by
  have offset : region.addr + UInt64.ofNat n - region.addr = UInt64.ofNat n := by
    rw [UInt64.add_comm, UInt64.add_sub_cancel]
  rw [Region.Contains, offset, UInt64.toNat_ofNat_of_lt' small]

/-- The field is written inside the region; or its dictionary is empty and always used, and the
    byte read before the division by zero is one of the fuzzing input. -/
def Field.FitsIn (field : Field) (mode : Mode) (dataSz : Nat) (w : Window) : Prop :=
  if field.input.drawable mode then field.offset + field.input.nBytes ≤ w.region.len
  else w.overflowed dataSz = false → w.start + field.offset < dataSz

instance (field : Field) (mode : Mode) (dataSz : Nat) (w : Window) :
    Decidable (field.FitsIn mode dataSz w) :=
  inferInstanceAs (Decidable (if field.input.drawable mode then
    field.offset + field.input.nBytes ≤ w.region.len
    else w.overflowed dataSz = false → w.start + field.offset < dataSz))

/-- The fields up to the first whose dictionary is empty and always used. -/
def Stage2HWModel.reachedFields (stage2 : Stage2HWModel) : List Field :=
  upTo (fun field => field.input.drawable stage2.mode) stage2.fields

/-- All windows, or the first only when its fields end the process. -/
def Stage2HWModel.reachedWindows (stage2 : Stage2HWModel) (dataSz : Nat) : List Window :=
  upTo (fun _ => stage2.fields.all fun field => field.input.drawable stage2.mode)
    (windows dataSz 0 stage2.dmasg)

/-! ## Fields that fit are written inside the region -/

section

variable {data : Nat → UInt8} {dataSz : Nat} {mode : Mode} {w : Window} {field : Field}

theorem sat_fetchOriginal {overflowed : Bool} {index : Nat}
    (inside : overflowed = false → index < dataSz) :
    Sat (fun _ => True) (Event.InBounds dataSz) (fetchOriginal data overflowed index) fun _ _ => True := by
  unfold fetchOriginal
  cases overflowed with
  | true => exact sat_rand64 fun _ _ => trivial
  | false => exact sat_bind (sat_emit (inside rfl)) fun _ => sat_pure fun _ _ => trivial

theorem sat_feedCopy {i : Nat} (read : w.overflowed dataSz = false → w.start + field.place i < dataSz)
    (written : field.input.drawable mode = true → field.place i + field.input.nBytes ≤ w.region.len) :
    Sat (fun _ => True) (Event.InBounds dataSz)
      (feedCopy data mode w.region w.start (w.overflowed dataSz) field i)
      fun _ _ => field.input.drawable mode = true := by
  refine sat_bind (sat_fetchOriginal read) fun original => sat_bind HWInput.sat_feedData fun value => ?_
  intro s drawable
  refine sat_emit ?_ s drawable
  intro j bound
  have := written drawable
  have := w.region.len_lt
  exact (w.region.contains_iff (by omega)).mpr (by omega)

theorem sat_feedField (inside : field.offset + field.input.nBytes ≤ field.model.structLen)
    (fits : field.FitsIn mode dataSz w) :
    Sat (fun _ => True) (Event.InBounds dataSz)
      (feedField data mode w.region w.start (w.overflowed dataSz) field)
      fun _ _ => field.input.drawable mode = true ∧ True := by
  have pos := field.input.nBytes_pos
  obtain ⟨rest, range⟩ := range_loopCount w.region.len field.model
  refine (sat_forEach (p := fun _ => field.input.drawable mode) ?_).weaken (fun _ holds => holds) ?_
  case refine_2 =>
    rintro _ _ ⟨all, -⟩
    exact ⟨all 0 (range ▸ List.mem_cons_self), trivial⟩
  intro i reached
  unfold Field.FitsIn at fits
  refine (sat_feedCopy ?_ ?_).weaken (fun _ holds => holds) fun _ _ drawable => ⟨drawable, trivial⟩
  case refine_1 =>
    intro available
    -- an input that cannot be drawn ends the process in the first copy
    split_ifs at fits with drawable
    · have bound := place_le inside fits (List.mem_range.mp (mem_of_mem_upTo reached))
      simp only [Window.overflowed, decide_eq_false_iff_not] at available
      omega
    · rw [range] at reached
      obtain rfl := eq_of_mem_upTo_cons (by simpa using drawable) reached
      simpa [Field.place] using fits available
  case refine_2 =>
    intro drawable
    rw [if_pos drawable] at fits
    exact place_le inside fits (List.mem_range.mp (mem_of_mem_upTo reached))

theorem sat_bulk (w : Window) :
    Sat (fun _ : Stream => True) (Event.InBounds dataSz) (when (!w.overflowed dataSz) (emit (.bulk w.region w.start)))
      fun _ _ => True := by
  refine sat_when fun available => sat_emit ?_
  simp only [Window.overflowed, Bool.not_eq_true', decide_eq_false_iff_not] at available
  intro j bound
  have := w.region.len_lt
  exact ⟨(w.region.contains_iff (by omega)).mpr bound, by omega⟩

theorem sat_feedWindow {stage2 : PlacedHWModel}
    (fits : ∀ field ∈ stage2.reachedFields, field.FitsIn stage2.mode dataSz w) :
    Sat (fun _ => True) (Event.InBounds dataSz) (feedWindow stage2.toStage2HWModel data dataSz true w)
      fun _ _ => (stage2.fields.all fun field => field.input.drawable stage2.mode) = true ∧ True := by
  refine sat_bind (sat_bulk w) fun _ => ?_
  refine (sat_forEach (p := fun field => field.input.drawable stage2.mode) ?_).weaken (fun _ holds => holds) ?_
  · intro field reached
    exact sat_feedField (stage2.inside field (mem_of_mem_upTo reached)) (fits field reached)
  · rintro _ _ ⟨all, -⟩
    exact ⟨List.all_eq_true.mpr all, trivial⟩

end

/-! ## Fields that do not fit are written outside -/

section

variable {data : Nat → UInt8} {dataSz : Nat} {w : Window} {field : Field} {stage2 : PlacedHWModel}

theorem Event.not_inBounds_apply (inside : field.offset + field.input.nBytes ≤ field.model.structLen)
    (outside : ¬ field.offset + field.input.nBytes ≤ w.region.len) (value : UInt64) :
    ¬ Event.InBounds dataSz (.apply w.region field 0 value) := by
  intro inBounds
  have pos := field.input.nBytes_pos
  have := field.model.structLen_lt
  have last := inBounds (field.input.nBytes - 1) (by omega)
  rw [w.region.contains_iff (by simp [Field.place]; omega)] at last
  simp only [Field.place] at last
  omega

theorem draws_of_drawable {mode : Mode} {input : HWInput} (drawable : input.drawable mode = true) :
    Draws (HWInput.Constant 99) mode input :=
  fun _ => HWInput.returns_feedData_constant (HWInput.drawnWith_of_drawable rfl drawable)

theorem constant_tail {r : RandValue} (s : Stream) (constant : HWInput.Constant r s) :
    HWInput.Constant r fun n => s (n + 1) :=
  fun n => constant (n + 1)

theorem yields_feedField (member : field ∈ stage2.fields) (unfit : ¬ field.FitsIn stage2.mode dataSz w) :
    Yields (HWInput.Constant 99) (fun e => ¬ e.InBounds dataSz)
      (feedField data stage2.mode w.region w.start (w.overflowed dataSz) field) := by
  have inside := stage2.inside field member
  obtain ⟨rest, range⟩ := range_loopCount w.region.len field.model
  unfold feedField
  rw [range]
  refine yields_bind_left ?_
  unfold Field.FitsIn at unfit
  split_ifs at unfit with drawable
  · exact yields_feedCopy constant_tail (draws_of_drawable drawable) (Event.not_inBounds_apply inside unfit)
  · obtain ⟨available, outside⟩ := Classical.not_imp.mp unfit
    refine yields_bind_left ?_
    rw [available]
    exact yields_bind_left (yields_emit (by simpa [Event.InBounds, Field.place] using outside))

theorem yields_feedFuzzDMAData (window : w ∈ stage2.reachedWindows dataSz)
    (reached : field ∈ stage2.reachedFields) (unfit : ¬ field.FitsIn stage2.mode dataSz w) :
    Yields (HWInput.Constant 99) (fun e => ¬ e.InBounds dataSz)
      (stage2.feedFuzzDMAData data dataSz true) := by
  unfold Stage2HWModel.feedFuzzDMAData
  rw [feedRegions_eq]
  refine yields_forEach window (fun _ _ all => ?_) ?_
  · exact returns_feedWindow constant_tail
      fun other member => draws_of_drawable (List.all_eq_true.mp all other member)
  · refine yields_bind_right (returns_when fun _ => returns_emit) fun _ => ?_
    exact yields_forEach reached (fun _ _ drawable => returns_feedField constant_tail (draws_of_drawable drawable))
      (yields_feedField (mem_of_mem_upTo reached) unfit)

end

/-- The accesses stay in bounds exactly when every field fits into every region it is applied to. -/
theorem feedFuzzDMAData_inBounds_iff (stage2 : PlacedHWModel) (data : Nat → UInt8) (dataSz : Nat)
    (useModel : Bool) :
    (∀ s, ∀ e ∈ (stage2.feedFuzzDMAData data dataSz useModel).log s, e.InBounds dataSz) ↔
      (useModel = true → ∀ w ∈ stage2.reachedWindows dataSz, ∀ field ∈ stage2.reachedFields,
        field.FitsIn stage2.mode dataSz w) := by
  constructor
  · rintro inBounds rfl w window field reached
    by_contra unfit
    obtain ⟨e, logged, outside⟩ := yields_feedFuzzDMAData window reached unfit (fun _ => 99) fun _ => rfl
    exact outside (inBounds _ e logged)
  · intro fits s
    unfold Stage2HWModel.feedFuzzDMAData
    rw [feedRegions_eq]
    cases useModel with
    | true => exact (sat_forEach (fun w window => sat_feedWindow (fits rfl w window)) s trivial).1
    | false =>
      refine (sat_forEach_all (fun w _ => sat_bind (sat_bulk w) fun _ => ?_) s trivial).1
      exact sat_pure fun _ _ => trivial

/-- The field of the 800 byte structure in `HWModel_vmxnet3.h`. -/
def vmxnet3Input800 : HWInput where
  nBytes := 4
  nBytes_pos := by decide
  bitsCombinations := [0x0, 0x3, 0x4, 0x7, 0xfffffffffffffff8]
  dict := [0x0, 0x0, 0x3, 0x4, 0x7, 0xfffffffffffffff8]
  useModelProb := 75

def vmxnet3Model800 : DMAInputModel where
  bufferLen := 16
  structLen := 800
  structLen_pos := by decide
  structLen_lt := by decide
  inputs := AList.singleton 696 vmxnet3Input800

/-- The model of 800 bytes and a region of 16. -/
def shortRegion : PlacedHWModel where
  dmaInputs := AList.singleton 16 vmxnet3Model800
  dmasg := [⟨0x1000, 16, by decide⟩]
  mode := .random
  inside := by
    intro field member
    obtain rfl : field = ⟨vmxnet3Model800, 696, vmxnet3Input800⟩ := List.mem_singleton.mp member
    decide

theorem feedFuzzDMAData_shortRegion_not_inBounds :
    ¬ ∀ s, ∀ e ∈ (shortRegion.feedFuzzDMAData (fun _ => 0) 4096 true).log s, e.InBounds 4096 := by
  intro inBounds
  have window : ⟨⟨0x1000, 16, by decide⟩, 0⟩ ∈ shortRegion.reachedWindows 4096 := head_mem_upTo
  have reached : ⟨vmxnet3Model800, 696, vmxnet3Input800⟩ ∈ shortRegion.reachedFields := head_mem_upTo
  obtain ⟨e, logged, outside⟩ := yields_feedFuzzDMAData window reached (by decide) (fun _ => 99) fun _ => rfl
  exact outside (inBounds _ e logged)

end DevFuzz.Stage2
