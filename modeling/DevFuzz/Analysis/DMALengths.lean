import DevFuzz.Stage2.Feed
import Mathlib.Data.List.Basic

/-! # Lengths of DMA buffers

Step 2 of `APStage2Pass` in `apstage2.cpp` records a length for every struct type and
every slot of a struct that the result of a `dma_alloc` call may reach.  The sets of
what has been discovered belong to the pass, not to the call: the length of a call is
assigned to all that has been discovered so far, so that in the end every entry has the
length of the last call (`lengths_pass`).
-/

namespace DevFuzz.Analysis

variable {τ σ : Type}

/-- A `dma_alloc` call: its size argument if that is a constant, and what
    `findPointerStoredToType` and `tryFindDMATypeByCast` insert for its result. -/
structure DmaAlloc (τ σ : Type) where
  sizeArg : Option UInt64
  slots : List σ
  types : List τ

/-- `len`, an `int`. -/
def DmaAlloc.len (call : DmaAlloc τ σ) : Int :=
  match call.sizeArg with
  | some value => Stage2.asInt value
  | none => 0

/-- How many bytes are allocated, as far as that is known. -/
def DmaAlloc.size (call : DmaAlloc τ σ) : Int :=
  match call.sizeArg with
  | some value => value.toNat
  | none => 0

/-- The last call that produces something. -/
def lastCall (calls : List (DmaAlloc τ σ)) (produces : DmaAlloc τ σ → Bool) : Option (DmaAlloc τ σ) :=
  calls.reverse.find? produces

theorem lastCall_mem {calls : List (DmaAlloc τ σ)} {produces : DmaAlloc τ σ → Bool} {call : DmaAlloc τ σ}
    (found : lastCall calls produces = some call) : call ∈ calls ∧ produces call = true :=
  ⟨List.mem_reverse.mp (List.mem_of_find?_eq_some found), List.find?_some found⟩

/-- A `CastInst` of the module: the struct type it casts to, and the slot that its operand points
    to, when that is a `getelementptr` into a struct with a constant offset. -/
structure CastInst (τ σ : Type) where
  dstType : Option τ
  tpOff : Option σ

/-- The sets and maps of `APStage2` that Step 2 fills. -/
structure DmaTables (τ σ : Type) where
  dmaAddrStoreDst : List σ
  dmaBufferTypes : List τ
  typeOffset2DMABufferLengths : σ → Option Int
  dmaType2DMABufferLengths : τ → Option Int

variable [DecidableEq τ] [DecidableEq σ]

/-- `for (auto & key : keys) lengths[key] = len;` -/
def assignAll {κ : Type} [DecidableEq κ] (lengths : κ → Option Int) (keys : List κ) (len : Int) : κ → Option Int :=
  keys.foldl (fun lengths key => Function.update lengths key (some len)) lengths

/-- The body of the loop over `callDmaAlloc`. -/
def DmaTables.discover (tables : DmaTables τ σ) (call : DmaAlloc τ σ) : DmaTables τ σ :=
  let dmaAddrStoreDst := call.slots ∪ tables.dmaAddrStoreDst
  let dmaBufferTypes := call.types ∪ tables.dmaBufferTypes
  { dmaAddrStoreDst, dmaBufferTypes
    typeOffset2DMABufferLengths := assignAll tables.typeOffset2DMABufferLengths dmaAddrStoreDst call.len
    dmaType2DMABufferLengths := assignAll tables.dmaType2DMABufferLengths dmaBufferTypes call.len }

/-- The body of the loop of `findMemRegionTypeByCast` over the instructions of the module, called
    with `dmaAddrStoreDst` and `dmaBufferTypes`. -/
def DmaTables.atCast (tables : DmaTables τ σ) (bc : CastInst τ σ) : DmaTables τ σ :=
  match bc.dstType, bc.tpOff with
  | some dstType, some tpOff =>
    if tpOff ∈ tables.dmaAddrStoreDst then
      -- `operator[]` of the map on the right inserts 0 for a missing key
      let len := (tables.typeOffset2DMABufferLengths tpOff).getD 0
      { tables with
        typeOffset2DMABufferLengths := Function.update tables.typeOffset2DMABufferLengths tpOff (some len)
        dmaType2DMABufferLengths := Function.update tables.dmaType2DMABufferLengths dstType (some len)
        dmaBufferTypes := tables.dmaBufferTypes.insert dstType }
    else tables
  | _, _ => tables

def findMemRegionTypeByCast (casts : List (CastInst τ σ)) (tables : DmaTables τ σ) : DmaTables τ σ :=
  casts.foldl DmaTables.atCast tables

/-- Step 2 of `APStage2Pass`. -/
def lengthsPass (calls : List (DmaAlloc τ σ)) (casts : List (CastInst τ σ)) : DmaTables τ σ :=
  findMemRegionTypeByCast casts (calls.foldl DmaTables.discover ⟨[], [], fun _ => none, fun _ => none⟩)

/-! ## What is recorded -/

theorem assignAll_apply {κ : Type} [DecidableEq κ] (lengths : κ → Option Int) (keys : List κ) (len : Int) (key : κ) :
    assignAll lengths keys len key = if key ∈ keys then some len else lengths key := by
  induction keys generalizing lengths with
  | nil => rfl
  | cons first keys ih =>
    rw [assignAll, List.foldl_cons]
    refine (ih _).trans ?_
    by_cases later : key ∈ keys
    · simp [later]
    · by_cases here : key = first
      · simp [here]
      · simp [later, here]

/-- Everything discovered so far has the length `len`. -/
structure DmaTables.Uniform (tables : DmaTables τ σ) (len : Int) : Prop where
  slots : ∀ slot ∈ tables.dmaAddrStoreDst, tables.typeOffset2DMABufferLengths slot = some len
  types : ∀ type ∈ tables.dmaBufferTypes, tables.dmaType2DMABufferLengths type = some len

theorem DmaTables.uniform_discover (tables : DmaTables τ σ) (call : DmaAlloc τ σ) :
    (tables.discover call).Uniform call.len := by
  constructor
  · intro slot member
    exact (assignAll_apply _ _ _ slot).trans (if_pos member)
  · intro type member
    exact (assignAll_apply _ _ _ type).trans (if_pos member)

theorem DmaTables.Uniform.atCast {tables : DmaTables τ σ} {len : Int} (uniform : tables.Uniform len)
    (bc : CastInst τ σ) : (tables.atCast bc).Uniform len := by
  unfold DmaTables.atCast
  split
  · rename_i dstType tpOff _ _
    split_ifs with known
    · rw [uniform.slots tpOff known]
      constructor
      · intro slot member
        by_cases here : slot = tpOff
        · simp [here]
        · simpa [here] using uniform.slots slot member
      · intro type member
        by_cases here : type = dstType
        · simp [here]
        · simp only [List.mem_insert_iff, here, false_or] at member
          simpa [here] using uniform.types type member
    · exact uniform
  · exact uniform

/-- What `call` reaches has been discovered. -/
structure DmaTables.Knows (tables : DmaTables τ σ) (call : DmaAlloc τ σ) : Prop where
  slots : call.slots ⊆ tables.dmaAddrStoreDst
  types : call.types ⊆ tables.dmaBufferTypes

theorem DmaTables.knows_discover (tables : DmaTables τ σ) (call : DmaAlloc τ σ) : (tables.discover call).Knows call :=
  ⟨fun _ member => List.mem_union_iff.mpr (.inl member), fun _ member => List.mem_union_iff.mpr (.inl member)⟩

theorem DmaTables.Knows.discover {tables : DmaTables τ σ} {call : DmaAlloc τ σ} (knows : tables.Knows call)
    (next : DmaAlloc τ σ) : (tables.discover next).Knows call := by
  constructor
  · exact fun slot member => List.mem_union_iff.mpr (.inr (knows.slots member))
  · exact fun type member => List.mem_union_iff.mpr (.inr (knows.types member))

theorem DmaTables.Knows.atCast {tables : DmaTables τ σ} {call : DmaAlloc τ σ} (knows : tables.Knows call)
    (bc : CastInst τ σ) : (tables.atCast bc).Knows call := by
  unfold DmaTables.atCast
  split
  · split_ifs
    · exact ⟨knows.slots, fun type member => List.mem_insert_of_mem (knows.types member)⟩
    · exact knows
  · exact knows

theorem knows_discovered {calls : List (DmaAlloc τ σ)} {call : DmaAlloc τ σ} (member : call ∈ calls)
    (tables : DmaTables τ σ) : (calls.foldl DmaTables.discover tables).Knows call := by
  have later : ∀ (rest : List (DmaAlloc τ σ)) {tables : DmaTables τ σ}, tables.Knows call →
      (rest.foldl DmaTables.discover tables).Knows call := by
    intro rest
    induction rest with
    | nil => exact fun knows => knows
    | cons next rest ih => exact fun knows => ih (knows.discover next)
  induction calls generalizing tables with
  | nil => exact absurd member List.not_mem_nil
  | cons first calls ih =>
    cases List.mem_cons.mp member with
    | inl here => exact later calls (here ▸ tables.knows_discover first)
    | inr further => exact ih further (tables.discover first)

/-- After Step 2 everything that a call reaches has the length of the last call. -/
theorem lengths_pass {calls : List (DmaAlloc τ σ)} (casts : List (CastInst τ σ)) {final : DmaAlloc τ σ}
    (last : calls.getLast? = some final) :
    (lengthsPass calls casts).Uniform final.len ∧ ∀ call ∈ calls, (lengthsPass calls casts).Knows call := by
  obtain ⟨earlier, rfl⟩ := List.getLast?_eq_some_iff.mp last
  have start : ((earlier ++ [final]).foldl DmaTables.discover ⟨[], [], fun _ => none, fun _ => none⟩).Uniform
      final.len := by
    rw [List.foldl_append]
    exact DmaTables.uniform_discover _ final
  have known := fun call (member : call ∈ earlier ++ [final]) =>
    knows_discovered member ⟨[], [], fun _ => none, fun _ => none⟩
  unfold lengthsPass findMemRegionTypeByCast
  generalize (earlier ++ [final]).foldl DmaTables.discover ⟨[], [], fun _ => none, fun _ => none⟩ = tables
    at start known
  induction casts generalizing tables with
  | nil => exact ⟨start, known⟩
  | cons bc casts ih => exact ih (tables.atCast bc) (start.atCast bc) fun call member => (known call member).atCast bc

/-! ## Lengths of their own -/

/-- Every type and slot that a call reaches is recorded with the size of the last call that
    reaches it. -/
structure OwnLengths (calls : List (DmaAlloc τ σ)) (casts : List (CastInst τ σ)) : Prop where
  slots : ∀ slot call, lastCall calls (slot ∈ ·.slots) = some call →
    (lengthsPass calls casts).typeOffset2DMABufferLengths slot = some call.size
  types : ∀ type call, lastCall calls (type ∈ ·.types) = some call →
    (lengthsPass calls casts).dmaType2DMABufferLengths type = some call.size

/-- The call is the last one to reach something. -/
def IsLastProducer (calls : List (DmaAlloc τ σ)) (call : DmaAlloc τ σ) : Prop :=
  (∃ slot, lastCall calls (slot ∈ ·.slots) = some call) ∨ ∃ type, lastCall calls (type ∈ ·.types) = some call

theorem ownLengths_iff (calls : List (DmaAlloc τ σ)) (casts : List (CastInst τ σ)) :
    OwnLengths calls casts ↔
      ∀ final, calls.getLast? = some final → ∀ call, IsLastProducer calls call → call.size = final.len := by
  have slotLength : ∀ {slot call final}, lastCall calls (slot ∈ ·.slots) = some call → calls.getLast? = some final →
      (lengthsPass calls casts).typeOffset2DMABufferLengths slot = some final.len := by
    intro slot call final found last
    obtain ⟨member, reaches⟩ := lastCall_mem found
    obtain ⟨uniform, known⟩ := lengths_pass casts last
    exact uniform.slots slot ((known call member).slots (of_decide_eq_true reaches))
  have typeLength : ∀ {type call final}, lastCall calls (type ∈ ·.types) = some call → calls.getLast? = some final →
      (lengthsPass calls casts).dmaType2DMABufferLengths type = some final.len := by
    intro type call final found last
    obtain ⟨member, reaches⟩ := lastCall_mem found
    obtain ⟨uniform, known⟩ := lengths_pass casts last
    exact uniform.types type ((known call member).types (of_decide_eq_true reaches))
  have exists_last : ∀ {call}, call ∈ calls → ∃ final, calls.getLast? = some final := by
    intro call member
    exact ⟨_, List.getLast?_eq_some_getLast (List.ne_nil_of_mem member)⟩
  constructor
  · intro own final last call producer
    cases producer with
    | inl reached =>
      obtain ⟨slot, found⟩ := reached
      exact Option.some.inj ((own.slots slot call found).symm.trans (slotLength found last))
    | inr reached =>
      obtain ⟨type, found⟩ := reached
      exact Option.some.inj ((own.types type call found).symm.trans (typeLength found last))
  · intro equal
    constructor
    · intro slot call found
      obtain ⟨final, last⟩ := exists_last (lastCall_mem found).1
      rw [slotLength found last, equal final last call (.inl ⟨slot, found⟩)]
    · intro type call found
      obtain ⟨final, last⟩ := exists_last (lastCall_mem found).1
      rw [typeLength found last, equal final last call (.inr ⟨type, found⟩)]

/-- Two allocations of 64 and 4096 bytes for two types: the first type gets the length of the second. -/
theorem not_ownLengths_twoCalls :
    ¬ OwnLengths ([⟨some 64, [], [0]⟩, ⟨some 4096, [], [1]⟩] : List (DmaAlloc Nat Nat)) [] := by
  intro own
  exact absurd (own.types 0 ⟨some 64, [], [0]⟩ rfl) (by decide)

end DevFuzz.Analysis
