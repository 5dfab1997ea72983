import DevFuzz.Analysis.SecondaryDMA
import DevFuzz.Stage2.Bookkeeping

/-! # Looking for secondary DMA buffers

`genSecondaryDMAInitCode` of `stage2/src/apstage2.cpp` turns the members that hold addresses of DMA buffers into calls of
`setSecondaryDMAInfo`, by which the model of the device finds the addresses at run time.  It divides by the size of
a structure, and so does the model.  A structure is in the table only with a member, so it is not empty; and it is
left out if its size does not divide the length of the buffer, which the model asserts.

What is left is the loop of the model over a vector that it adds to: where the vector moves under the loop, a scan may miss
regions or worse, and nothing is said about it (`finds_of_pass`).
-/

namespace DevFuzz.Analysis.SecondaryDMA

open DevFuzz.Lib DevFuzz.Stage2 Relation Subclass MemberOffset

/-! ## The emitted calls -/

/-- `model->setSecondaryDMAInfo(dma_struct_sz, dma_buf_sz, offset, l2_dma_buf_sz)`, where the last argument may be
    left out. -/
structure SetSecondaryDMAInfo where
  dmaStructSz : Int
  dmaBufSz : Int
  offset : Int
  l2DmaBufSz : Option Int
  deriving DecidableEq

/-- A row of the table in the order of the `unordered_map`. -/
structure Row (τ : Type) where
  structType : τ
  pairs : List (Int × Int)
  nonempty : pairs ≠ []

section

variable {τ κ : Type} (dl : DataLayout τ κ) (dmaType2DMABufferLengths : τ → Option Int)

def getStructSize (structType : τ) : Int := asInt (dl.size structType)

def Row.l1DmaBufferSz (row : Row τ) : Int := (dmaType2DMABufferLengths row.structType).getD 0

/-- One pass of the outer loop.  No result where the remainder traps. -/
def genRow (row : Row τ) : Option (List SetSecondaryDMAInfo) :=
  let structSz := getStructSize dl row.structType
  let l1 := row.l1DmaBufferSz dmaType2DMABufferLengths
  if structSz = 0 ∨ structSz = -1 ∧ l1 = -2147483648 then none
  else if l1.tmod structSz ≠ 0 then some []
  else some (row.pairs.map fun p => ⟨structSz, l1, p.1, if p.2 ≠ 0 then some p.2 else none⟩)

def genSecondaryDMAInitCode (rows : List (Row τ)) : Option (List SetSecondaryDMAInfo) :=
  rows.foldlM (fun code row => (genRow dl dmaType2DMABufferLengths row).map (code ++ ·)) []

end

/-- `setSecondaryDMAInfo` of `Stage2HWModel` -/
def SetSecondaryDMAInfo.exec (infos : AList fun _ : Int => List SecondaryDMAInfo) (call : SetSecondaryDMAInfo) :
    AList fun _ : Int => List SecondaryDMAInfo :=
  infos.insert call.dmaBufSz
    ((infos.lookup call.dmaBufSz).getD [] ++ [⟨call.dmaStructSz, call.offset, call.l2DmaBufSz.getD 4096⟩])

def SetSecondaryDMAInfo.info (call : SetSecondaryDMAInfo) : SecondaryDMAInfo :=
  ⟨call.dmaStructSz, call.offset, call.l2DmaBufSz.getD 4096⟩

/-- The model has an entry for each call, under the length that the call names. -/
theorem mem_lookup_exec (code : List SetSecondaryDMAInfo) (dmaLen : Int) (info : SecondaryDMAInfo) :
    info ∈ ((code.foldl SetSecondaryDMAInfo.exec ∅).lookup dmaLen).getD [] ↔
      ∃ call ∈ code, call.dmaBufSz = dmaLen ∧ call.info = info := by
  induction code using List.reverseRecOn with
  | nil => simp
  | append_singleton code call ih =>
    rw [List.foldl_concat, SetSecondaryDMAInfo.exec]
    by_cases here : call.dmaBufSz = dmaLen
    · subst here
      simp only [AList.lookup_insert, Option.getD_some, List.mem_append, ih, List.mem_singleton]
      simp [SetSecondaryDMAInfo.info, or_and_right, exists_or, eq_comm]
    · rw [AList.lookup_insert_ne (Ne.symm here), ih]
      simp [here]

/-! ### What is emitted -/

section

variable {τ κ : Type} {dl : DataLayout τ κ} {dmaType2DMABufferLengths : τ → Option Int}

/-- The calls for a row whose structures fill the buffer. -/
def Row.calls (dl : DataLayout τ κ) (dmaType2DMABufferLengths : τ → Option Int) (row : Row τ) :
    List SetSecondaryDMAInfo :=
  row.pairs.map fun p => ⟨getStructSize dl row.structType, row.l1DmaBufferSz dmaType2DMABufferLengths, p.1,
    if p.2 ≠ 0 then some p.2 else none⟩

theorem genRow_of_pos {row : Row τ} (positive : 0 < getStructSize dl row.structType) :
    ∃ calls, genRow dl dmaType2DMABufferLengths row = some calls ∧
      ∀ call, call ∈ calls ↔ getStructSize dl row.structType ∣ row.l1DmaBufferSz dmaType2DMABufferLengths ∧
        call ∈ row.calls dl dmaType2DMABufferLengths := by
  unfold genRow
  rw [if_neg (by omega)]
  by_cases fills : (row.l1DmaBufferSz dmaType2DMABufferLengths).tmod (getStructSize dl row.structType) = 0
  · rw [if_neg (not_not_intro fills)]
    exact ⟨_, rfl, fun call => (and_iff_right (Int.dvd_of_tmod_eq_zero fills)).symm⟩
  · rw [if_pos fills]
    refine ⟨_, rfl, fun call => iff_of_false List.not_mem_nil fun both => fills ?_⟩
    exact Int.tmod_eq_zero_of_dvd both.1

theorem genSecondaryDMAInitCode_spec {rows : List (Row τ)}
    (positive : ∀ row ∈ rows, 0 < getStructSize dl row.structType) :
    ∃ code, genSecondaryDMAInitCode dl dmaType2DMABufferLengths rows = some code ∧
      ∀ call, call ∈ code ↔ ∃ row ∈ rows,
        getStructSize dl row.structType ∣ row.l1DmaBufferSz dmaType2DMABufferLengths ∧
          call ∈ row.calls dl dmaType2DMABufferLengths := by
  have each : ∀ row ∈ rows, ∃ calls : List SetSecondaryDMAInfo,
      (∀ code, (genRow dl dmaType2DMABufferLengths row).map (code ++ ·) =
        some (calls.foldl (fun code call => code ++ [call]) code)) ∧
      ∀ call, call ∈ calls ↔ getStructSize dl row.structType ∣ row.l1DmaBufferSz dmaType2DMABufferLengths ∧
        call ∈ row.calls dl dmaType2DMABufferLengths := by
    intro row member
    obtain ⟨calls, emitted, members⟩ := genRow_of_pos (positive row member)
    exact ⟨calls, fun code => by simp [emitted, ← List.flatMap_def], members⟩
  obtain ⟨code, emitted, members⟩ := foldlM_effects each
  exact ⟨code, by simpa [genSecondaryDMAInitCode, ← List.flatMap_def] using emitted [], members⟩

end

/-! ## What a scan finds -/

section

open Bookkeeping

variable {s : Bookkeeping} {memory : UInt64 → UInt8} {infos : AList fun _ : Int => List SecondaryDMAInfo}

/-- There is no region at the address, or it is known. -/
def Known (addr : UInt64) (s : Bookkeeping) : Prop := addr = 0 ∨ addr ∈ s.dmaStarts

theorem Known.addSecondary {addr : UInt64} (known : Known addr s) (region : UInt64 × UInt64) :
    Known addr (s.addSecondary region) := by
  unfold Bookkeeping.addSecondary
  split_ifs
  · exact known.imp_right (Finset.mem_insert_of_mem ·)
  · exact known

theorem known_addSecondary (s : Bookkeeping) (region : UInt64 × UInt64) : Known region.1 (s.addSecondary region) := by
  unfold Bookkeeping.addSecondary
  split_ifs with new
  · exact .inr (Finset.mem_insert_self _ _)
  · by_cases zero : region.1 = 0
    · exact .inl zero
    · exact .inr (by simpa [zero] using new)

theorem known_foldl (regions : List (UInt64 × UInt64)) (s : Bookkeeping) :
    (∀ region ∈ regions, Known region.1 (regions.foldl Bookkeeping.addSecondary s)) ∧
      ∀ addr, Known addr s → Known addr (regions.foldl Bookkeeping.addSecondary s) := by
  induction regions generalizing s with
  | nil => exact ⟨nofun, fun _ => id⟩
  | cons region regions ih =>
    obtain ⟨each, kept⟩ := ih (s.addSecondary region)
    refine ⟨?_, fun addr known => kept addr (known.addSecondary region)⟩
    intro other member
    cases member with
    | head => exact kept _ (known_addSecondary s region)
    | tail _ later => exact each other later

/-- The address in structure `i` of a region. -/
def SecondaryDMAInfo.target (memory : UInt64 → UInt8) (dmaAddr : UInt64) (info : SecondaryDMAInfo) (i : Int) : UInt64 :=
  secondaryDmaAddr memory (dmaAddr + UInt64.ofInt (i * info.structSz) + UInt64.ofInt info.offset)

/-- All addresses in the structures of a region are known. -/
def Covered (memory : UInt64 → UInt8) (dmaAddr : UInt64) (dmaLen : Int) (info : SecondaryDMAInfo) (s : Bookkeeping) : Prop :=
  ∀ i : Nat, i * info.structSz < dmaLen → Known (SecondaryDMAInfo.target memory dmaAddr info i) s

theorem scanStructs_covers (dmaAddr : UInt64) {dmaLen : Int} {info : SecondaryDMAInfo} (positive : 0 < info.structSz)
    (dvd : info.structSz ∣ dmaLen) (same : s.secondaryDmaInfos = infos) :
    ∃ t, scanStructs memory dmaAddr dmaLen s info = some t ∧ t.secondaryDmaInfos = infos ∧
      Covered memory dmaAddr dmaLen info t ∧ ∀ addr, Known addr s → Known addr t := by
  obtain ⟨t, returns, kept⟩ := scanStructs_returns memory dmaAddr positive dvd same
  refine ⟨t, returns, kept, ?_⟩
  unfold scanStructs at returns
  split_ifs at returns with stops
  obtain rfl := Option.some.inj returns
  simp only [bind_pure_comp, List.map_eq_map]
  obtain ⟨each, keeps⟩ := known_foldl (((List.range (dmaLen.tdiv info.structSz).toNat).map Nat.cast).map fun i =>
    (SecondaryDMAInfo.target memory dmaAddr info i, UInt64.ofInt info.l2DmaSz)) s
  rw [List.foldl_map] at each keeps
  refine ⟨fun i below => each _ (List.mem_map.mpr ⟨i, List.mem_map.mpr ⟨i, List.mem_range.mpr ?_, rfl⟩, rfl⟩), keeps⟩
  obtain ⟨n, rfl⟩ := dvd
  rw [Int.mul_tdiv_cancel_left _ positive.ne']
  have : (i : Int) < n := Int.lt_of_mul_lt_mul_right (by rwa [mul_comm n]) positive.le
  omega

/-- All addresses in the structures of a region, of every kind that is looked for in it. -/
def RegionCovered (memory : UInt64 → UInt8) (infos : AList fun _ : Int => List SecondaryDMAInfo)
    (region : UInt64 × UInt64) (s : Bookkeeping) : Prop :=
  ∀ info ∈ (infos.lookup (asInt region.2)).getD [], Covered memory region.1 (asInt region.2) info s

theorem RegionCovered.mono {region : UInt64 × UInt64} {t : Bookkeeping} (covered : RegionCovered memory infos region s)
    (more : ∀ addr, Known addr s → Known addr t) : RegionCovered memory infos region t :=
  fun info member i below => more _ (covered info member i below)

theorem scanRegion_covers (divides : Divides infos) (region : UInt64 × UInt64) (same : s.secondaryDmaInfos = infos) :
    ∃ t, scanRegion memory s region = some t ∧ t.secondaryDmaInfos = infos ∧
      RegionCovered memory infos region t ∧ ∀ addr, Known addr s → Known addr t := by
  have step : ∀ t info, info ∈ (s.secondaryDmaInfos.lookup (asInt region.2)).getD [] →
      (t.secondaryDmaInfos = infos ∧ ∀ addr, Known addr s → Known addr t) →
      ∃ u, scanStructs memory region.1 (asInt region.2) t info = some u ∧
        (u.secondaryDmaInfos = infos ∧ ∀ addr, Known addr s → Known addr u) ∧
        Covered memory region.1 (asInt region.2) info u ∧
        ∀ other, Covered memory region.1 (asInt region.2) other t → Covered memory region.1 (asInt region.2) other u := by
    intro t info member ⟨kept, keeps⟩
    rw [same] at member
    have entry : 0 < info.structSz ∧ info.structSz ∣ asInt region.2 := by
      cases found : infos.lookup (asInt region.2) with
      | none => simp [found] at member
      | some entries => exact divides _ entries found info (by simpa [found] using member)
    obtain ⟨u, scanned, kept, covers, more⟩ := scanStructs_covers region.1 entry.1 entry.2 kept
    exact ⟨u, scanned, ⟨kept, fun addr known => more addr (keeps addr known)⟩, covers, fun other covered i below =>
      more _ (covered i below)⟩
  obtain ⟨t, returns, ⟨kept, keeps⟩, all, -⟩ := foldlM_spec step ⟨same, fun _ => id⟩
  rw [same] at all
  exact ⟨t, returns, kept, all, keeps⟩

/-- A scan returns, and knows every address in the regions that were known before. -/
theorem scanSecondaryDMABuffer_covers (memory : UInt64 → UInt8) (divides : Divides infos) (same : s.secondaryDmaInfos = infos) :
    ∃ t, s.scanSecondaryDMABuffer memory = some t ∧ ∀ region ∈ s.dmasg, RegionCovered memory infos region t := by
  have step : ∀ t region, region ∈ s.dmasg → t.secondaryDmaInfos = infos →
      ∃ u, scanRegion memory t region = some u ∧ u.secondaryDmaInfos = infos ∧ RegionCovered memory infos region u ∧
        ∀ other, RegionCovered memory infos other t → RegionCovered memory infos other u := by
    intro t region _ kept
    obtain ⟨u, scanned, kept, covers, more⟩ := scanRegion_covers divides region kept
    exact ⟨u, scanned, kept, covers, fun other covered => covered.mono more⟩
  obtain ⟨t, returns, -, all, -⟩ := foldlM_spec step same
  exact ⟨t, returns, all⟩

end

/-! ## From the driver to the device -/

section

open Bookkeeping

variable {ν γ φ τ κ : Type} [DecidableEq ν] [DecidableEq γ] [DecidableEq τ]

/-- The rows hold what the table holds. -/
def Lists (rows : List (Row τ)) (table : τ → Int → Option Int) : Prop :=
  ∀ structType offset sz, (∃ row ∈ rows, row.structType = structType ∧ (offset, sz) ∈ row.pairs) ↔
    table structType offset = some sz

omit [DecidableEq ν] [DecidableEq γ] [DecidableEq τ] in
theorem Names.getStructSize {m : Module ν γ φ τ κ} {geps : γ → GetElementPtr ν} {g : γ} {structType : τ} {offset : Int}
    (names : Names m geps g structType offset)
    (small : ∀ structType ∈ m.dmaBufferTypes, (m.dl.size structType).toNat < 2147483648) :
    SecondaryDMA.getStructSize m.dl structType = (m.dl.size structType).toNat :=
  asInt_of_lt (small structType names.known)

omit [DecidableEq τ] in
/-- Where the emitted structure sizes are positive, the entries divide the lengths that they are under. -/
theorem divides_exec {dl : DataLayout τ κ} {dmaType2DMABufferLengths : τ → Option Int} {rows : List (Row τ)}
    {code : List SetSecondaryDMAInfo} (positive : ∀ row ∈ rows, 0 < getStructSize dl row.structType)
    (members : ∀ call, call ∈ code ↔ ∃ row ∈ rows,
      getStructSize dl row.structType ∣ row.l1DmaBufferSz dmaType2DMABufferLengths ∧
        call ∈ row.calls dl dmaType2DMABufferLengths) :
    Divides (code.foldl SetSecondaryDMAInfo.exec ∅) := by
  intro dmaLen entries found info member
  have entry := mem_lookup_exec code dmaLen info
  rw [Option.mem_def.mp found] at entry
  obtain ⟨call, emitted, rfl, rfl⟩ := entry.mp member
  obtain ⟨row, known, fills, called⟩ := (members call).mp emitted
  obtain ⟨p, -, rfl⟩ := List.mem_map.mp called
  exact ⟨positive row known, fills⟩

/-- After a scan, every address in the members that the driver stores addresses to is known, in all structures of a
    region, where the structures fill regions of that length. -/
def Finds (m : Module ν γ φ τ κ) (geps : γ → GetElementPtr ν) (addresses : List (ν × Int))
    (dmaType2DMABufferLengths : τ → Option Int) (memory : UInt64 → UInt8) (s t : Bookkeeping) : Prop :=
  ∀ a ∈ addresses, ∀ g, Stored m a.1 g → ∀ structType offset, Names m geps g structType offset →
    ∀ region ∈ s.dmasg, asInt region.2 = (dmaType2DMABufferLengths structType).getD 0 →
      ((m.dl.size structType).toNat : Int) ∣ asInt region.2 →
      ∀ i : Nat, i * ((m.dl.size structType).toNat : Int) < asInt region.2 →
        i * ((m.dl.size structType).toNat : Int) + offset < asInt region.2 ∧
          Known (secondaryDmaAddr memory
            (region.1 + UInt64.ofInt (i * (m.dl.size structType).toNat) + UInt64.ofInt offset)) t

omit [DecidableEq ν] [DecidableEq γ] [DecidableEq τ] in
/-- A member has been recorded, so that there is a call for it, and the model looks for addresses there. -/
theorem finds_of_covered {m : Module ν γ φ τ κ} {geps : γ → GetElementPtr ν} {addresses : List (ν × Int)}
    {dmaType2DMABufferLengths : τ → Option Int} {rows : List (Row τ)} {code : List SetSecondaryDMAInfo}
    {memory : UInt64 → UInt8} {s t : Bookkeeping}
    (small : ∀ structType ∈ m.dmaBufferTypes, (m.dl.size structType).toNat < 2147483648)
    (members : ∀ call, call ∈ code ↔ ∃ row ∈ rows,
      SecondaryDMA.getStructSize m.dl row.structType ∣ row.l1DmaBufferSz dmaType2DMABufferLengths ∧
        call ∈ row.calls m.dl dmaType2DMABufferLengths)
    (covered : ∀ region ∈ s.dmasg, RegionCovered memory (code.foldl SetSecondaryDMAInfo.exec ∅) region t)
    (recorded : ∀ a ∈ addresses, ∀ g, Stored m a.1 g → ∀ structType offset, Names m geps g structType offset →
      ∃ row ∈ rows, row.structType = structType ∧ ∃ sz, (offset, sz) ∈ row.pairs) :
    Finds m geps addresses dmaType2DMABufferLengths memory s t := by
  intro a known g stored structType offset names region member len fills i below
  have nonneg := names.nonneg
  have inside := names.inside
  have size := names.getStructSize small
  obtain ⟨row, listed, rfl, sz, pair⟩ := recorded a known g stored structType offset names
  have divided : SecondaryDMA.getStructSize m.dl row.structType ∣ row.l1DmaBufferSz dmaType2DMABufferLengths := by
    rw [size, Row.l1DmaBufferSz, ← len]
    exact fills
  have call := (members _).mpr ⟨row, listed, divided, List.mem_map.mpr ⟨_, pair, rfl⟩⟩
  have entry := (mem_lookup_exec code (asInt region.2) _).mpr ⟨_, call, len.symm, rfl⟩
  constructor
  · -- the next structure begins inside the region or at its end
    obtain ⟨n, whole⟩ := fills
    have next : (i : Int) < n := by
      rw [whole, mul_comm] at below
      exact Int.lt_of_mul_lt_mul_left below (by omega)
    have := Int.mul_le_mul_of_nonneg_left (Int.add_one_le_of_lt next) (by omega : 0 ≤ ((m.dl.size row.structType).toNat : Int))
    rw [← whole, mul_add, mul_comm, mul_one] at this
    omega
  · simpa [SetSecondaryDMAInfo.info, SecondaryDMAInfo.target, size, below] using covered region member _ entry i

/-- What a scan with the vector in memory does.  It goes through when there is room for a region per structure. -/
structure Scans (m : Module ν γ φ τ κ) (geps : γ → GetElementPtr ν) (addresses : List (ν × Int))
    (dmaType2DMABufferLengths : τ → Option Int) (s : Bookkeeping) (free : Nat) (memory : UInt64 → UInt8) : Prop where
  goes : s.scanInPlace free memory ≠ .error .stops
  room : s.structs ≤ free → ∃ t, s.scanInPlace free memory = .ok t
  finds : ∀ t, s.scanInPlace free memory = .ok t → Finds m geps addresses dmaType2DMABufferLengths memory s t

end

inductive RingValue where
  | address
  | around
  | word
  deriving DecidableEq

instance : Fintype RingValue := ⟨{.address, .around, .word}, fun v => by cases v <;> simp⟩

theorem descriptorSize_lt : (16 : UInt64).toNat < 2305843009213693952 := by decide

/-- A ring of descriptors with an address at offset 8.  The address goes around in a loop before it is stored. -/
def ringModule : Module RingValue Unit Unit Unit Unit where
  users
    | .address => [.phi .around]
    | .around => [.phi .around, .cast .word]
    | .word => [.store (some ())]
  getSourceElementType _ := .struct ()
  dl := ⟨fun _ => ⟨16, [(0, .other ()), (8, .pointer (.other ()))], descriptorSize_lt⟩, fun _ element member => by
    simp only [List.mem_cons, List.not_mem_nil, or_false] at member
    rcases member with rfl | rfl <;> exact nofun⟩
  elementType _ := none
  typeAllocSize _ := 8
  bitcode :=
    { node _ := .other
      users _ := []
      bits _ := 64
      storeSize _ := 8
      body _ := none
      stripPointerCasts := id
      strip_strip _ := rfl
      strip_load _ _ _ := rfl
      strip_cast _ _ _ := .inl rfl }
  dmaBufferTypes := [()]

/-- `getelementptr %desc, %address, %around, i32 1` -/
def ringGep : GetElementPtr RingValue := ⟨.other .address, [.other .around, .constantInt 32 1]⟩

theorem names_ringGep : Names ringModule (fun _ => ringGep) () () 8 where
  source := rfl
  known := List.mem_singleton.mpr rfl
  reaches := ⟨8, by decide, by decide⟩
  starts := ⟨(8, .pointer (.other ())), by simp [ringModule], rfl⟩
  inside := by decide

end DevFuzz.Analysis.SecondaryDMA
