import DevFuzz.Stage2.HWInput
import Mathlib.Data.List.AList

/-! # Filling DMA regions

`DMAInputModel` and `Stage2HWModel` of `aplib/HWModel.h`, and `feedFuzzDMAData`,
which writes a window of the fuzzing input over each region and then the fields of
every model on top.

The events of a run are its accesses: what it reads of the fuzzing input and what
it writes to guest memory.
-/

namespace DevFuzz.Stage2

open DevFuzz.Lib DevFuzz.Lib.Logged

/-! ## Models and regions -/

/-- The fields of a DMA structure, by their offsets.  The structure is not empty, since its length
    is divided by. -/
structure DMAInputModel where
  bufferLen : Int
  structLen : Nat
  structLen_pos : 0 < structLen
  structLen_lt : structLen < 2147483648
  inputs : AList fun _ : Nat => HWInput

/-- A registered region; its length was an `int`. -/
structure Region where
  addr : UInt64
  len : Nat
  len_lt : len < 2147483648

/-- The maps are in the order in which they are iterated over. -/
structure Stage2HWModel where
  dmaInputs : AList fun _ : Int => DMAInputModel
  dmasg : List Region
  mode : Mode

/-- A field together with the model it belongs to. -/
structure Field where
  model : DMAInputModel
  offset : Nat
  input : HWInput

def DMAInputModel.fields (model : DMAInputModel) : List Field :=
  model.inputs.entries.map fun entry => ⟨model, entry.1, entry.2⟩

/-- What the loop over `dma_inputs` and the loop over `getInputs()` inside it visit. -/
def Stage2HWModel.fields (stage2 : Stage2HWModel) : List Field :=
  stage2.dmaInputs.entries.flatMap fun entry => entry.2.fields

/-- A model whose fields lie inside their structures. -/
structure PlacedHWModel extends Stage2HWModel where
  inside : ∀ field ∈ toStage2HWModel.fields,
    field.offset + field.input.nBytes ≤ field.model.structLen

/-- `loop_cnt` -/
def loopCount (len structLen : Nat) : Nat :=
  if structLen < len ∧ len % structLen = 0 then len / structLen else 1

/-- `off`, for the copy `i` of the structure -/
def Field.place (field : Field) (i : Nat) : Nat := field.offset + field.model.structLen * i

section

variable {field : Field} {len i : Nat}

theorem DMAInputModel.mem_fields {model : DMAInputModel} :
    field ∈ model.fields ↔ field.model = model ∧ ⟨field.offset, field.input⟩ ∈ model.inputs.entries := by
  constructor
  · intro member
    obtain ⟨entry, inside, rfl⟩ := List.mem_map.mp member
    exact ⟨rfl, inside⟩
  · rintro ⟨rfl, inside⟩
    exact List.mem_map.mpr ⟨_, inside, rfl⟩

theorem Stage2HWModel.mem_fields {stage2 : Stage2HWModel} :
    field ∈ stage2.fields ↔ ∃ entry ∈ stage2.dmaInputs.entries, field ∈ entry.2.fields :=
  List.mem_flatMap

/-- There is a first copy. -/
theorem range_loopCount (len : Nat) (model : DMAInputModel) :
    ∃ rest, List.range (loopCount len model.structLen) = 0 :: rest := by
  have pos : 0 < loopCount len model.structLen := by
    unfold loopCount
    split_ifs with divides
    · exact Nat.div_pos (Nat.le_of_lt divides.1) model.structLen_pos
    · exact Nat.one_pos
  obtain ⟨count, eq⟩ := Nat.exists_eq_succ_of_ne_zero (Nat.ne_of_gt pos)
  exact ⟨_, by rw [eq, List.range_succ_eq_map]⟩

/-- Copies of a structure that divides the buffer stay inside it; otherwise there is one copy. -/
theorem place_le (inside : field.offset + field.input.nBytes ≤ field.model.structLen)
    (fits : field.offset + field.input.nBytes ≤ len) (copy : i < loopCount len field.model.structLen) :
    field.place i + field.input.nBytes ≤ len := by
  unfold loopCount at copy
  unfold Field.place
  split_ifs at copy with divides
  · calc field.offset + field.model.structLen * i + field.input.nBytes
        ≤ field.model.structLen * (i + 1) := by rw [Nat.mul_succ]; omega
      _ ≤ field.model.structLen * (len / field.model.structLen) := Nat.mul_le_mul_left _ copy
      _ ≤ len := Nat.mul_div_le len _
  · obtain rfl : i = 0 := by omega
    omega

end

/-! ## The loops of `feedFuzzDMAData` -/

inductive Event where
  /-- `writePhyMemGeneric(addr, dma_data, len)`, with the position of `dma_data` -/
  | bulk (region : Region) (start : Nat)
  /-- `dma_data[off]` -/
  | fetch (index : Nat)
  /-- `writePhyMemGeneric(addr + off, &model_data, size())` -/
  | apply (region : Region) (field : Field) (i : Nat) (value : UInt64)

section

variable (stage2 : Stage2HWModel) (data : Nat → UInt8) (dataSz : Nat)

/-- The second argument of `feedData`. -/
def fetchOriginal (overflowed : Bool) (index : Nat) : Logged Event Stream UInt64 :=
  if overflowed then rand64 else do
    emit (.fetch index)
    pure (data index).toUInt64

def feedCopy (mode : Mode) (region : Region) (start : Nat) (overflowed : Bool) (field : Field) (i : Nat) :
    Logged Event Stream Unit := do
  let original ← fetchOriginal data overflowed (start + field.place i)
  let value ← field.input.feedData mode original
  emit (.apply region field i value)

def feedField (mode : Mode) (region : Region) (start : Nat) (overflowed : Bool) (field : Field) :
    Logged Event Stream Unit :=
  forEach (feedCopy data mode region start overflowed field)
    (List.range (loopCount region.len field.model.structLen))

/-- The loop over `dmasg`; `pos` is where `dma_data` stands. -/
def feedRegions (useModel : Bool) : Nat → List Region → Logged Event Stream Unit
  | _, [] => pure ()
  | pos, region :: rest => do
    let start := if dataSz < pos + region.len then 0 else pos
    let overflowed := decide (dataSz < start + region.len)
    when (!overflowed) (emit (.bulk region start))
    when useModel (forEach (feedField data stage2.mode region start overflowed) stage2.fields)
    feedRegions useModel (start + region.len) rest

def Stage2HWModel.feedFuzzDMAData (useModel : Bool) : Logged Event Stream Unit :=
  feedRegions stage2 data dataSz useModel 0 stage2.dmasg

/-! ## Windows -/

/-- A region and where the data for it starts. -/
structure Window where
  region : Region
  start : Nat

def Window.overflowed (w : Window) : Bool := decide (dataSz < w.start + w.region.len)

/-- The windows do not depend on what is written. -/
def windows : Nat → List Region → List Window
  | _, [] => []
  | pos, region :: rest =>
    let start := if dataSz < pos + region.len then 0 else pos
    ⟨region, start⟩ :: windows (start + region.len) rest

def feedWindow (useModel : Bool) (w : Window) : Logged Event Stream Unit := do
  when (!w.overflowed dataSz) (emit (.bulk w.region w.start))
  when useModel
    (forEach (feedField data stage2.mode w.region w.start (w.overflowed dataSz)) stage2.fields)

theorem feedRegions_eq (useModel : Bool) (pos : Nat) (regions : List Region) :
    feedRegions stage2 data dataSz useModel pos regions =
      forEach (feedWindow stage2 data dataSz useModel) (windows dataSz pos regions) := by
  induction regions generalizing pos with
  | nil => rfl
  | cons region rest ih =>
    simp only [feedRegions, windows, forEach, feedWindow, Window.overflowed, ih, Logged.bind_assoc]

/-- Without the models, the data is copied for every window that has room. -/
theorem run_feedWindows_raw (ws : List Window) (s : Stream) :
    (forEach (feedWindow stage2 data dataSz false) ws).run s =
      ((ws.filter fun w => !w.overflowed dataSz).map fun w => .bulk w.region w.start, some ((), s)) := by
  induction ws with
  | nil => rfl
  | cons w rest ih =>
    cases room : w.overflowed dataSz with
    | true =>
      have here : (feedWindow stage2 data dataSz false w).run s = ([], some ((), s)) := by
        rw [feedWindow, room]
        rfl
      rw [forEach, run_bind_of_some here, ih, List.filter_cons_of_neg (by simp [room])]
      rfl
    | false =>
      have here : (feedWindow stage2 data dataSz false w).run s = ([.bulk w.region w.start], some ((), s)) := by
        rw [feedWindow, room]
        rfl
      rw [forEach, run_bind_of_some here, ih, List.filter_cons_of_pos (by simp [room])]
      rfl

end

/-! ## Runs that return -/

section

variable {stage2 : Stage2HWModel} {data : Nat → UInt8} {dataSz : Nat} {mode : Mode} {I : Stream → Prop}

/-- The random numbers that keep to `I` let `feedData` return. -/
def Draws (I : Stream → Prop) (mode : Mode) (input : HWInput) : Prop :=
  ∀ original, Returns I (input.feedData mode original : Logged Event _ _) fun _ => I

variable (keeps : ∀ s, I s → I fun n => s (n + 1))

include keeps

theorem returns_fetchOriginal {overflowed : Bool} {index : Nat} :
    Returns I (fetchOriginal data overflowed index) fun _ => I := by
  cases overflowed with
  | true => exact returns_rand64 keeps
  | false => exact returns_bind returns_emit fun _ => returns_pure fun _ start => start

variable {region : Region} {start : Nat} {overflowed : Bool} {field : Field}

theorem returns_feedCopy {i : Nat} (draws : Draws I mode field.input) :
    Returns I (feedCopy data mode region start overflowed field i) fun _ => I :=
  returns_bind (returns_fetchOriginal keeps) fun original =>
    returns_bind (draws original) fun _ => returns_emit

theorem returns_feedField (draws : Draws I mode field.input) :
    Returns I (feedField data mode region start overflowed field) fun _ => I :=
  returns_forEach fun _ _ => returns_feedCopy keeps draws

theorem yields_feedCopy {Q : Event → Prop} {i : Nat} (draws : Draws I mode field.input)
    (holds : ∀ value, Q (.apply region field i value)) :
    Yields I Q (feedCopy data mode region start overflowed field i) :=
  yields_bind_right (returns_fetchOriginal keeps) fun original =>
    yields_bind_right (draws original) fun value => yields_emit (holds value)

theorem returns_feedWindow {w : Window}
    (draws : ∀ field ∈ stage2.fields, Draws I stage2.mode field.input) :
    Returns I (feedWindow stage2 data dataSz true w) fun _ => I :=
  returns_bind (returns_when fun _ => returns_emit) fun _ =>
    returns_forEach fun field member => returns_feedField keeps (draws field member)

end

end DevFuzz.Stage2
