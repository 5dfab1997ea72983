import DevFuzz.Stage2.DMABounds
import Mathlib.Data.List.Induction

/-! # From the models of the analysis to those of a run

The generated code passes one `DMAInputModel` per structure type to the constructor
of `Stage2HWModel`, which keys them by their buffer length: of several models with
one length only the last is kept, and `feedFuzzDMAData` applies no field of the
others.
-/

namespace DevFuzz.Stage2

open DevFuzz.Lib DevFuzz.Lib.Logged

/-! ## The constructor -/

/-- `for (auto & m : dma_mdl) dma_inputs[m.getBufferLen()] = m;` -/
def fromModels (dmaMdl : List DMAInputModel) : AList fun _ : Int => DMAInputModel :=
  dmaMdl.foldl (fun map m => map.insert m.bufferLen m) ∅

/-- The model of the list that the constructor keeps for a buffer length. -/
def lastOf (dmaMdl : List DMAInputModel) (len : Int) : Option DMAInputModel :=
  (dmaMdl.filter fun m => m.bufferLen = len).getLast?

theorem lookup_fromModels (dmaMdl : List DMAInputModel) (len : Int) :
    (fromModels dmaMdl).lookup len = lastOf dmaMdl len := by
  induction dmaMdl using List.reverseRecOn with
  | nil => rfl
  | append_singleton front m ih =>
    unfold fromModels lastOf at *
    rw [List.foldl_append, List.filter_append, List.foldl_cons, List.foldl_nil]
    by_cases same : m.bufferLen = len
    · subst same
      simp [AList.lookup_insert]
    · rw [AList.lookup_insert_ne (Ne.symm same), ih]
      simp [same]

theorem mem_fromModels {dmaMdl : List DMAInputModel} {len : Int} {model : DMAInputModel} :
    ⟨len, model⟩ ∈ (fromModels dmaMdl).entries ↔ lastOf dmaMdl len = some model := by
  rw [← AList.mem_lookup_iff, lookup_fromModels, Option.mem_def]

theorem lastOf_mem {dmaMdl : List DMAInputModel} {len : Int} {model : DMAInputModel}
    (last : lastOf dmaMdl len = some model) : model ∈ dmaMdl ∧ model.bufferLen = len := by
  simpa using List.mem_of_getLast? last

/-! ## What is applied -/

section

variable (stage2 : Stage2HWModel) {data : Nat → UInt8} {dataSz : Nat} {r : RandValue}

/-- A field is written only if it is one of the fields of the map and can be drawn from. -/
def Event.DrawnWith (r : RandValue) : Event → Prop
  | .apply _ field _ _ => field ∈ stage2.fields ∧ field.input.drawnWith stage2.mode r = true
  | _ => True

variable {stage2}

theorem sat_fetchOriginal_constant {overflowed : Bool} {index : Nat} :
    Sat (HWInput.Constant r) (Event.DrawnWith stage2 r) (fetchOriginal data overflowed index)
      fun _ => HWInput.Constant r := by
  unfold fetchOriginal
  cases overflowed with
  | true => exact sat_rand64 constant_tail
  | false => exact sat_bind (sat_emit trivial) fun _ => sat_pure fun _ constant => constant

theorem sat_feedWindow_constant (w : Window) :
    Sat (HWInput.Constant r) (Event.DrawnWith stage2 r) (feedWindow stage2 data dataSz true w)
      fun _ => HWInput.Constant r := by
  refine sat_bind (sat_when fun _ => sat_emit trivial) fun _ =>
    sat_forEach_all fun field member => sat_forEach_all fun i _ => ?_
  refine sat_bind sat_fetchOriginal_constant fun original =>
    sat_bind HWInput.sat_feedData_constant fun value => ?_
  rintro s ⟨drawn, constant⟩
  exact sat_emit ⟨member, drawn⟩ s constant

theorem drawnWith_of_applied {region : Region} {field : Field} {i : Nat} {value : UInt64}
    (applied : .apply region field i value ∈ (stage2.feedFuzzDMAData data dataSz true).log fun _ => r) :
    field ∈ stage2.fields ∧ field.input.drawnWith stage2.mode r = true := by
  unfold Stage2HWModel.feedFuzzDMAData at applied
  rw [feedRegions_eq] at applied
  exact (sat_forEach_all (fun w _ => sat_feedWindow_constant w) (fun _ => r) fun _ => rfl).1 _ applied

theorem exists_window (dataSz : Nat) {region : Region} {regions : List Region} (member : region ∈ regions) (pos : Nat) :
    ∃ w ∈ windows dataSz pos regions, w.region = region := by
  induction regions generalizing pos with
  | nil => exact absurd member List.not_mem_nil
  | cons first rest ih =>
    rcases List.mem_cons.mp member with rfl | later
    · exact ⟨_, List.mem_cons_self, rfl⟩
    · obtain ⟨w, inside, same⟩ := ih later ((if dataSz < pos + first.len then 0 else pos) + first.len)
      exact ⟨w, List.mem_cons_of_mem _ inside, same⟩

/-- A run that cannot die applies every field to every region. -/
theorem applied_of_draws (draws : ∀ field ∈ stage2.fields, Draws (fun _ => True) stage2.mode field.input)
    {region : Region} (registered : region ∈ stage2.dmasg) {field : Field} (member : field ∈ stage2.fields)
    {i : Nat} (copy : i < loopCount region.len field.model.structLen) (s : Stream) :
    ∃ value, .apply region field i value ∈ (stage2.feedFuzzDMAData data dataSz true).log s := by
  obtain ⟨w, window, rfl⟩ := exists_window dataSz registered 0
  have yields : Yields (fun _ => True) (fun e => ∃ value, e = .apply w.region field i value)
      (stage2.feedFuzzDMAData data dataSz true) := by
    unfold Stage2HWModel.feedFuzzDMAData
    rw [feedRegions_eq]
    refine yields_forEach_all window (fun _ _ => returns_feedWindow (fun _ _ => trivial) draws) ?_
    refine yields_bind_right (returns_when fun _ => returns_emit) fun _ => ?_
    refine yields_forEach_all member
      (fun other inside => returns_feedField (fun _ _ => trivial) (draws other inside)) ?_
    exact yields_forEach_all (List.mem_range.mpr copy)
      (fun _ _ => returns_feedCopy (fun _ _ => trivial) (draws field member))
      (yields_feedCopy (fun _ _ => trivial) (draws field member) fun value => ⟨value, rfl⟩)
  obtain ⟨e, logged, value, rfl⟩ := yields s trivial
  exact ⟨value, logged⟩

end

/-! ## No model is dropped -/

/-- In whatever order the map is iterated over and whatever `rand` returns, every copy of every
    field of every model is written to every region. -/
def NoModelDropped (dmaMdl : List DMAInputModel) (dmasg : List Region) (mode : Mode) (data : Nat → UInt8)
    (dataSz : Nat) : Prop :=
  ∀ dmaInputs : AList fun _ : Int => DMAInputModel, dmaInputs.entries.Perm (fromModels dmaMdl).entries →
    ∀ s, ∀ model ∈ dmaMdl, ∀ field ∈ model.fields, ∀ region ∈ dmasg,
      ∀ i < loopCount region.len model.structLen, ∃ value, Event.apply region field i value ∈
        (Stage2HWModel.feedFuzzDMAData ⟨dmaInputs, dmasg, mode⟩ data dataSz true).log s

section

variable {dmaMdl : List DMAInputModel} {dmasg : List Region} {mode : Mode} {data : Nat → UInt8} {dataSz : Nat}

theorem kept_of_noModelDropped (kept : NoModelDropped dmaMdl dmasg mode data dataSz) {region : Region}
    (registered : region ∈ dmasg) {model : DMAInputModel} (listed : model ∈ dmaMdl) {field : Field}
    (member : field ∈ model.fields) :
    lastOf dmaMdl model.bufferLen = some model ∧ field.input.alwaysDrawable mode = true := by
  obtain ⟨rfl, -⟩ := DMAInputModel.mem_fields.mp member
  obtain ⟨rest, range⟩ := range_loopCount region.len field.model
  have copy : 0 < loopCount region.len field.model.structLen :=
    List.mem_range.mp (range ▸ List.mem_cons_self)
  obtain ⟨value, applied⟩ := kept _ (List.Perm.refl _) (fun _ => 0) _ listed field member region registered 0 copy
  obtain ⟨survives, drawn⟩ := drawnWith_of_applied applied
  refine ⟨?_, HWInput.alwaysDrawable_of_drawnWith_zero drawn⟩
  obtain ⟨entry, entered, own⟩ := Stage2HWModel.mem_fields.mp survives
  obtain ⟨same, -⟩ := DMAInputModel.mem_fields.mp own
  have last : lastOf dmaMdl entry.1 = some field.model := by
    rw [same]
    exact mem_fromModels.mp entered
  rw [(lastOf_mem last).2]
  exact last

theorem noModelDropped_of_kept (kept : ∀ model ∈ dmaMdl, ∀ field ∈ model.fields,
      lastOf dmaMdl model.bufferLen = some model ∧ field.input.alwaysDrawable mode = true) :
    NoModelDropped dmaMdl dmasg mode data dataSz := by
  intro dmaInputs order s model listed field member region registered i copy
  obtain ⟨last, -⟩ := kept model listed field member
  obtain ⟨rfl, -⟩ := DMAInputModel.mem_fields.mp member
  have survives : field ∈ Stage2HWModel.fields ⟨dmaInputs, dmasg, mode⟩ :=
    Stage2HWModel.mem_fields.mpr ⟨_, order.mem_iff.mpr (mem_fromModels.mpr last), member⟩
  refine applied_of_draws ?_ registered survives copy s
  intro other inside original
  obtain ⟨entry, entered, own⟩ := Stage2HWModel.mem_fields.mp inside
  have known := (lastOf_mem (mem_fromModels.mp (order.mem_iff.mp entered))).1
  exact HWInput.returns_feedData (kept entry.2 known other own).2

end

/-- Nothing is dropped exactly when there is no region, or every model with a field is the last of
    the list with its buffer length and no draw of a field can divide by zero. -/
theorem noModelDropped_iff (dmaMdl : List DMAInputModel) (dmasg : List Region) (mode : Mode)
    (data : Nat → UInt8) (dataSz : Nat) :
    NoModelDropped dmaMdl dmasg mode data dataSz ↔
      dmasg = [] ∨ ∀ model ∈ dmaMdl, ∀ field ∈ model.fields,
        lastOf dmaMdl model.bufferLen = some model ∧ field.input.alwaysDrawable mode = true := by
  constructor
  · intro kept
    cases dmasg with
    | nil => exact .inl rfl
    | cons region rest =>
      exact .inr fun model listed field member =>
        kept_of_noModelDropped kept List.mem_cons_self listed member
  · rintro (rfl | kept)
    · exact fun _ _ _ _ _ _ _ _ registered => absurd registered List.not_mem_nil
    · exact noModelDropped_of_kept kept

/-- The structure of 176 bytes in `HWModel_vmxnet3.h`; its buffer length is that of `vmxnet3Model800`. -/
def vmxnet3Input176 : HWInput where
  nBytes := 2
  nBytes_pos := by decide
  bitsCombinations := [0x0, 0x1, 0x3, 0xfffffffffffffffc]
  dict := [0x0, 0x1, 0x0, 0x1, 0x3, 0xfffffffffffffffc, 0x0, 0x1, 0x3, 0x4, 0xffffffffffffffff]
  useModelProb := 75

def vmxnet3Model176 : DMAInputModel where
  bufferLen := 16
  structLen := 176
  structLen_pos := by decide
  structLen_lt := by decide
  inputs := AList.singleton 6 vmxnet3Input176

theorem not_noModelDropped_vmxnet3 :
    ¬ NoModelDropped [vmxnet3Model176, vmxnet3Model800] [⟨0x1000, 800, by decide⟩] .random (fun _ => 0) 4096 := by
  intro kept
  have own : ⟨vmxnet3Model176, 6, vmxnet3Input176⟩ ∈ vmxnet3Model176.fields := List.mem_singleton.mpr rfl
  have first := (kept_of_noModelDropped kept List.mem_cons_self List.mem_cons_self own).1
  have last : lastOf [vmxnet3Model176, vmxnet3Model800] 16 = some vmxnet3Model800 := rfl
  have same : vmxnet3Model800 = vmxnet3Model176 := Option.some.inj (last.symm.trans first)
  exact absurd (congrArg DMAInputModel.structLen same) (by decide)

end DevFuzz.Stage2
