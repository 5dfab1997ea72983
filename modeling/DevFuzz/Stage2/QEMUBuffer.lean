import DevFuzz.Stage2.DMABounds

/-! # Fuzzing a buffer of QEMU

`fuzzQEMU_DMABuffer` applies the fields of every model to a buffer that QEMU is
about to transfer.  As for a registered region, the length of the buffer only
decides how often a structure is repeated.
-/

namespace DevFuzz.Stage2

open DevFuzz.Lib DevFuzz.Lib.Logged

/-- The fuzzing input, which is not empty. -/
structure FuzzData where
  byte : Nat → UInt8
  size : Nat
  size_pos : 0 < size

/-- `memcpy(&buffer[off], &model_data, size)` -/
structure BufferWrite where
  off : Nat
  size : Nat
  value : UInt64

def BufferWrite.InBounds (len : Nat) (write : BufferWrite) : Prop := ∀ j < write.size, write.off + j < len

def fuzzCopy (mode : Mode) (afl : FuzzData) (useProb : Int) (field : Field) (i : Nat) :
    Logged BufferWrite Stream Unit := do
  let off := field.place i
  let wrappedAddr := off % afl.size
  let value ← field.input.feedData mode (afl.byte wrappedAddr).toUInt64
  let hit ← yes useProb
  when hit (emit ⟨off, field.input.nBytes, value⟩)

def Stage2HWModel.fuzzQEMUDMABuffer (stage2 : Stage2HWModel) (len : Nat) (afl : FuzzData) (useProb : Int) :
    Logged BufferWrite Stream Unit :=
  forEach (fun field => forEach (fuzzCopy stage2.mode afl useProb field)
    (List.range (loopCount len field.model.structLen))) stage2.fields

/-! ## Fields that fit -/

section

variable {stage2 : PlacedHWModel} {mode : Mode} {afl : FuzzData} {useProb : Int} {field : Field} {len : Nat}

theorem sat_yes {ε : Type} {P : ε → Prop} (prob : Int) :
    Sat (fun _ => True) P (yes prob) fun hit _ => hit = true → 0 < prob := by
  refine sat_bind (sat_rand fun _ _ => trivial) fun r => sat_pure fun _ _ hit => ?_
  have := of_decide_eq_true hit
  omega

theorem sat_fuzzCopy {i : Nat} (written : 0 < useProb → field.input.drawable mode = true →
      field.place i + field.input.nBytes ≤ len) :
    Sat (fun _ => True) (BufferWrite.InBounds len) (fuzzCopy mode afl useProb field i)
      fun _ _ => field.input.drawable mode = true ∧ True := by
  refine sat_bind HWInput.sat_feedData fun value => ?_
  by_cases drawable : field.input.drawable mode = true
  · intro s _
    refine sat_bind (sat_yes useProb) (fun hit => ?_) s trivial
    intro t positive
    refine ((sat_when (I := fun _ => True) fun hit => sat_emit ?_).weaken (fun _ holds => holds)
      fun _ _ _ => ⟨drawable, trivial⟩) t trivial
    intro j (bound : j < field.input.nBytes)
    have fits := written (positive hit) drawable
    show field.place i + j < len
    omega
  · exact fun _ impossible => absurd impossible drawable

theorem sat_fuzzQEMUDMABuffer (fits : 0 < useProb → ∀ field ∈ stage2.reachedFields,
      field.input.drawable stage2.mode = true → field.offset + field.input.nBytes ≤ len) :
    Sat (fun _ => True) (BufferWrite.InBounds len) (stage2.fuzzQEMUDMABuffer len afl useProb)
      fun _ _ => True := by
  refine (sat_forEach (p := fun field => field.input.drawable stage2.mode) ?_).weaken
    (fun _ holds => holds) fun _ _ _ => trivial
  intro field reached
  have inside := stage2.inside field (mem_of_mem_upTo reached)
  obtain ⟨rest, range⟩ := range_loopCount len field.model
  refine (sat_forEach (p := fun _ => field.input.drawable stage2.mode) fun i copy => ?_).weaken
    (fun _ holds => holds) fun _ _ after => ⟨after.1 0 (range ▸ List.mem_cons_self), trivial⟩
  exact sat_fuzzCopy fun positive drawable => place_le inside (fits positive field reached drawable)
    (List.mem_range.mp (mem_of_mem_upTo copy))

end

/-! ## Fields that do not fit -/

/-- Random numbers with which every field that can be drawn from is, and is written: a field takes
    three of them in random mode and one otherwise. -/
def Aligned : Mode → Stream → Prop
  | .random, s => ∀ n, s (3 * n) = 99 ∧ s (3 * n + 1) = 99 ∧ s (3 * n + 2) = 0
  | .indexed, s => ∀ n, s n = 0

def alignedStream : Mode → Stream
  | .random => fun n => if n % 3 = 2 then 0 else 99
  | .indexed => fun _ => 0

theorem aligned_alignedStream (mode : Mode) : Aligned mode (alignedStream mode) := by
  cases mode with
  | indexed => exact fun _ => rfl
  | random =>
    intro n
    simp only [alignedStream]
    exact ⟨if_neg (by omega), if_neg (by omega), if_pos (by omega)⟩

section

variable {stage2 : PlacedHWModel} {mode : Mode} {afl : FuzzData} {useProb : Int} {field : Field} {len : Nat}

theorem returns_feedData_aligned {input : HWInput} {original : UInt64} (drawable : input.drawable mode = true) :
    Returns (Aligned mode) (input.feedData mode original : Logged BufferWrite _ _)
      fun _ s => s 0 = 0 ∧ Aligned mode fun n => s (n + 1) := by
  intro s aligned
  have drawn : input.drawnWith mode (s 0) = true := by
    cases mode with
    | random => exact HWInput.drawnWith_of_drawable (by rw [(aligned 0).1]; rfl) drawable
    | indexed =>
      simp only [HWInput.drawable, reduceCtorEq, false_and, or_false] at drawable
      simpa [HWInput.drawnWith] using drawable
  rcases HWInput.feedData_apply BufferWrite input mode original s with
    ⟨value, returned, -⟩ | ⟨-, failed⟩
  · refine ⟨value, _, by rw [result, returned], ?_⟩
    -- two values are used up in the random mode and none in the other; the next one is zero
    cases mode with
    | random =>
      rw [HWInput.draws_random_of_high (by rw [(aligned 0).2.1]; decide)]
      exact ⟨(aligned 0).2.2, fun n => aligned (n + 1)⟩
    | indexed => exact ⟨aligned 0, fun n => aligned (n + 1)⟩
  · simp [drawn] at failed

theorem returns_yes_aligned {ε : Type} (positive : 0 < useProb) :
    Returns (fun s => s 0 = 0 ∧ Aligned mode fun n => s (n + 1)) (yes useProb : Logged ε _ _)
      fun hit s => hit = true ∧ Aligned mode s := by
  rintro s ⟨zero, aligned⟩
  refine ⟨_, _, rfl, ?_, aligned⟩
  have first : ((0 : RandValue).val % 100 : Nat) + 1 ≤ useProb := by simp; omega
  rw [zero]
  exact decide_eq_true first

theorem returns_fuzzCopy (positive : 0 < useProb) (drawable : field.input.drawable mode = true) (i : Nat) :
    Returns (Aligned mode) (fuzzCopy mode afl useProb field i) fun _ => Aligned mode :=
  returns_bind (returns_feedData_aligned drawable) fun _ =>
    returns_bind (returns_yes_aligned positive) fun _ s ⟨_, aligned⟩ =>
      returns_when (fun _ => returns_emit) s aligned

theorem yields_fuzzCopy (positive : 0 < useProb) (drawable : field.input.drawable mode = true)
    (outside : ¬ field.offset + field.input.nBytes ≤ len) :
    Yields (Aligned mode) (fun write => ¬ write.InBounds len) (fuzzCopy mode afl useProb field 0) := by
  refine yields_bind_right (returns_feedData_aligned drawable) fun value =>
    yields_bind_right (returns_yes_aligned positive) fun hit => ?_
  rintro s ⟨rfl, aligned⟩
  refine ⟨_, List.mem_cons_self, fun inBounds => ?_⟩
  have pos := field.input.nBytes_pos
  have last : field.place 0 + (field.input.nBytes - 1) < len := inBounds _ (by simp; omega)
  simp only [Field.place] at last
  omega

theorem yields_fuzzQEMUDMABuffer (positive : 0 < useProb) (reached : field ∈ stage2.reachedFields)
    (drawable : field.input.drawable stage2.mode = true)
    (outside : ¬ field.offset + field.input.nBytes ≤ len) :
    Yields (Aligned stage2.mode) (fun write => ¬ write.InBounds len)
      (stage2.fuzzQEMUDMABuffer len afl useProb) := by
  refine yields_forEach reached (fun other _ drawn => returns_forEach fun i _ => ?_) ?_
  · exact returns_fuzzCopy positive drawn i
  · obtain ⟨rest, range⟩ := range_loopCount len field.model
    rw [range]
    exact yields_bind_left (yields_fuzzCopy positive drawable outside)

end

/-- The buffer is written inside its bounds, whatever `rand` returns, exactly when nothing is
    written or every field that is drawn from fits. -/
theorem fuzzQEMUDMABuffer_inBounds_iff (stage2 : PlacedHWModel) (len : Nat) (afl : FuzzData) (useProb : Int) :
    (∀ s, ∀ write ∈ (stage2.fuzzQEMUDMABuffer len afl useProb).log s, write.InBounds len) ↔
      (0 < useProb → ∀ field ∈ stage2.reachedFields, field.input.drawable stage2.mode = true →
        field.offset + field.input.nBytes ≤ len) := by
  constructor
  · intro inBounds positive field reached drawable
    by_contra outside
    have yields : Yields _ _ (stage2.fuzzQEMUDMABuffer len afl useProb) :=
      yields_fuzzQEMUDMABuffer positive reached drawable outside
    obtain ⟨write, logged, notInBounds⟩ := yields _ (aligned_alignedStream _)
    exact notInBounds (inBounds _ write logged)
  · exact fun fits s => (sat_fuzzQEMUDMABuffer fits s trivial).1

/-- A transfer of 16 bytes with the structure of 800 bytes and the default probability. -/
theorem fuzzQEMUDMABuffer_shortRegion_not_inBounds :
    ¬ ∀ s, ∀ write ∈ (shortRegion.fuzzQEMUDMABuffer 16 ⟨fun _ => 0, 4096, by decide⟩ 10).log s,
      write.InBounds 16 := by
  intro inBounds
  have reached : ⟨vmxnet3Model800, 696, vmxnet3Input800⟩ ∈ shortRegion.reachedFields := head_mem_upTo
  have yields : Yields _ _ (shortRegion.fuzzQEMUDMABuffer 16 ⟨fun _ => 0, 4096, by decide⟩ 10) :=
    yields_fuzzQEMUDMABuffer (by decide) reached rfl (by decide)
  obtain ⟨write, logged, notInBounds⟩ := yields _ (aligned_alignedStream .random)
  exact notInBounds (inBounds _ write logged)

end DevFuzz.Stage2
