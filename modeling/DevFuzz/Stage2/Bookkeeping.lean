import DevFuzz.Lib.Collections
import DevFuzz.Lib.Run
import DevFuzz.Lib.Search
import DevFuzz.Stage2.Feed

/-! # What is known of the DMA regions

`Stage2HWModel` keeps the DMA regions of a device in `dmasg`, their addresses in `dma_starts`, and those that
were written to a register in `level1_dmas`.  A register write adds a region, and a scan adds the
regions whose addresses it finds in the regions that are known.  Both look into `dma_starts` first,
so the address of a region is never added twice (`Consistent`).

A scan adds regions to the vector that it walks through.  `scanSecondaryDMABuffer` is about the regions, and
`scanInPlace` about the vector as well, which may move in memory under the loop.
-/

namespace DevFuzz.Stage2

open DevFuzz.Lib DevFuzz.Lib.Bytes

/-- An entry of `secondary_dma_infos`, all of it `int`. -/
structure SecondaryDMAInfo where
  structSz : Int
  offset : Int
  l2DmaSz : Int

/-- The members of `Stage2HWModel` that are about DMA regions.  A region is its address and its length. -/
structure Bookkeeping where
  dmaRegs : AList fun _ : UInt64 => Int
  secondaryDmaInfos : AList fun _ : Int => List SecondaryDMAInfo
  dmasg : List (UInt64 × UInt64)
  dmaStarts : Finset UInt64
  level1Dmas : List (UInt64 × UInt64)
  level1DmaSet : Bool

namespace Bookkeeping

open Stage2Device (pageAligned)

def fresh (dmaRegs : AList fun _ : UInt64 => Int) (secondaryDmaInfos : AList fun _ : Int => List SecondaryDMAInfo) :
    Bookkeeping :=
  ⟨dmaRegs, secondaryDmaInfos, [], ∅, [], false⟩

def captureDMARegistration (s : Bookkeeping) (reg : Int) (value : UInt64) : Bookkeeping :=
  match s.dmaRegs.lookup (UInt64.ofInt reg) with
  | some sz =>
    let region := (pageAligned value, UInt64.ofInt (if sz = 0 then 4096 else sz))
    if pageAligned value ∈ s.dmaStarts then { s with level1DmaSet := true } else
      { s with
        level1DmaSet := true
        dmaStarts := insert region.1 s.dmaStarts
        level1Dmas := s.level1Dmas ++ [region]
        dmasg := s.dmasg ++ [region] }
  | none => s

/-- The page of the address that the guest has at `phyAddr`. -/
def secondaryDmaAddr (memory : UInt64 → UInt8) (phyAddr : UInt64) : UInt64 :=
  pageAligned (UInt64.ofNat (loadLE (fun i => memory (phyAddr + UInt64.ofNat i)) 0 4))

def addSecondary (s : Bookkeeping) (region : UInt64 × UInt64) : Bookkeeping :=
  if region.1 ≠ 0 ∧ region.1 ∉ s.dmaStarts then
    { s with
      dmasg := s.dmasg ++ [region]
      dmaStarts := insert region.1 s.dmaStarts }
  else s

/-- `dma_len % struct_sz` and `dma_len / struct_sz` trap. -/
def SecondaryDMAInfo.traps (info : SecondaryDMAInfo) (dmaLen : Int) : Bool :=
  info.structSz = 0 ∨ info.structSz = -1 ∧ dmaLen = -2147483648

/-- The loop over the structures of a region.  No result where a division traps or the assertion fails. -/
def scanStructs (memory : UInt64 → UInt8) (dmaAddr : UInt64) (dmaLen : Int) (s : Bookkeeping)
    (info : SecondaryDMAInfo) : Option Bookkeeping :=
  if SecondaryDMAInfo.traps info dmaLen ∨ dmaLen.tmod info.structSz ≠ 0 then none else
    some ((List.range (dmaLen.tdiv info.structSz).toNat).foldl (fun s i =>
      let phyAddr := dmaAddr + UInt64.ofInt (i * info.structSz) + UInt64.ofInt info.offset
      s.addSecondary (secondaryDmaAddr memory phyAddr, UInt64.ofInt info.l2DmaSz)) s)

def scanRegion (memory : UInt64 → UInt8) (s : Bookkeeping) (region : UInt64 × UInt64) : Option Bookkeeping :=
  let dmaLen := asInt region.2
  ((s.secondaryDmaInfos.lookup dmaLen).getD []).foldlM (scanStructs memory region.1 dmaLen) s

/-- The regions that were known before are visited. -/
def scanSecondaryDMABuffer (s : Bookkeeping) (memory : UInt64 → UInt8) : Option Bookkeeping :=
  s.dmasg.foldlM (scanRegion memory) s

end Bookkeeping

/-- A call, and for a scan what guest memory holds at that time. -/
inductive DMACall where
  | captureDMARegistration (reg : Int) (value : UInt64)
  | scanSecondaryDMABuffer (memory : UInt64 → UInt8)

def DMACall.exec (s : Bookkeeping) : DMACall → Option Bookkeeping
  | captureDMARegistration reg value => some (s.captureDMARegistration reg value)
  | scanSecondaryDMABuffer memory => s.scanSecondaryDMABuffer memory

namespace Bookkeeping

open Stage2Device (pageAligned)

structure Consistent (s : Bookkeeping) : Prop where
  distinct : (s.dmasg.map Prod.fst).Nodup
  aligned : ∀ region ∈ s.dmasg, 4096 ∣ region.1.toNat
  starts : ∀ addr, addr ∈ s.dmaStarts ↔ addr ∈ s.dmasg.map Prod.fst
  level1 : s.level1Dmas.Sublist s.dmasg
  set : s.dmasg ≠ [] → s.level1DmaSet = true

/-- The mask leaves no bit of an offset into the page. -/
theorem dvd_pageAligned (value : UInt64) : 4096 ∣ (pageAligned value).toNat := by
  have offset : (pageAligned value).toNat % 4096 = (pageAligned value).toNat &&& 4095 :=
    (Nat.and_two_pow_sub_one_eq_mod _ 12).symm
  refine Nat.dvd_of_mod_eq_zero (offset.trans ?_)
  rw [pageAligned, UInt64.toNat_and, Nat.and_assoc]
  exact Nat.and_zero _

theorem consistent_fresh (dmaRegs : AList fun _ : UInt64 => Int)
    (secondaryDmaInfos : AList fun _ : Int => List SecondaryDMAInfo) : (fresh dmaRegs secondaryDmaInfos).Consistent :=
  ⟨.nil, nofun, fun _ => iff_of_false (Finset.notMem_empty _) List.not_mem_nil, .slnil, fun some => absurd rfl some⟩

section

variable {s t : Bookkeeping} {region : UInt64 × UInt64}

/-- A region with a new address goes to the end of `dmasg`, and for a register write also of `level1_dmas`. -/
theorem Consistent.push (consistent : s.Consistent) (aligned : 4096 ∣ region.1.toNat) (new : region.1 ∉ s.dmaStarts)
    (dmasg : t.dmasg = s.dmasg ++ [region]) (starts : t.dmaStarts = insert region.1 s.dmaStarts)
    (level1 : t.level1Dmas = s.level1Dmas ∨ t.level1Dmas = s.level1Dmas ++ [region]) (set : t.level1DmaSet = true) :
    t.Consistent := by
  have addresses : t.dmasg.map Prod.fst = s.dmasg.map Prod.fst ++ [region.1] := by rw [dmasg, List.map_append]; rfl
  constructor
  · rw [addresses, ← List.concat_eq_append]
    exact consistent.distinct.concat fun known => new ((consistent.starts _).mpr known)
  · intro other member
    rw [dmasg, List.mem_append, List.mem_singleton] at member
    rcases member with member | rfl
    · exact consistent.aligned other member
    · exact aligned
  · intro addr
    rw [starts, addresses, Finset.mem_insert, consistent.starts, List.mem_append, List.mem_singleton]
    exact or_comm
  · rw [dmasg]
    cases level1 with
    | inl same => exact same ▸ consistent.level1.trans (List.sublist_append_left _ _)
    | inr added => exact added ▸ consistent.level1.append (List.Sublist.refl _)
  · exact fun _ => set

theorem Consistent.captureDMARegistration (consistent : s.Consistent) (reg : Int) (value : UInt64) :
    (s.captureDMARegistration reg value).Consistent := by
  unfold Bookkeeping.captureDMARegistration
  cases s.dmaRegs.lookup (UInt64.ofInt reg) with
  | none => exact consistent
  | some sz =>
    dsimp only
    by_cases known : pageAligned value ∈ s.dmaStarts
    · rw [if_pos known]
      exact { consistent with set := fun _ => rfl }
    · rw [if_neg known]
      exact consistent.push (dvd_pageAligned value) known rfl rfl (.inr rfl) rfl

/-- What holds while a scan goes on: it has a region to visit, so there has been a register write. -/
structure Scanning (s : Bookkeeping) : Prop where
  consistent : s.Consistent
  set : s.level1DmaSet = true

theorem Scanning.addSecondary (scanning : s.Scanning) (memory : UInt64 → UInt8) (phyAddr l2DmaSz : UInt64) :
    (s.addSecondary (secondaryDmaAddr memory phyAddr, l2DmaSz)).Scanning := by
  unfold Bookkeeping.addSecondary
  split_ifs with new
  · exact ⟨scanning.consistent.push (dvd_pageAligned _) new.2 rfl rfl (.inl rfl) scanning.set, scanning.set⟩
  · exact scanning

theorem Scanning.scanStructs {memory : UInt64 → UInt8} {dmaAddr : UInt64} {dmaLen : Int} {info : SecondaryDMAInfo}
    (scanning : s.Scanning) (scanned : scanStructs memory dmaAddr dmaLen s info = some t) : t.Scanning := by
  unfold Bookkeeping.scanStructs at scanned
  split_ifs at scanned with stops
  obtain rfl := Option.some.inj scanned
  exact List.foldlRecOn _ _ scanning fun s scanning i _ => scanning.addSecondary memory _ _

theorem Scanning.scanRegion {memory : UInt64 → UInt8} (scanning : s.Scanning)
    (scanned : scanRegion memory s region = some t) : t.Scanning :=
  (Run.of_foldlM scanned).invariant (fun _ _ _ scanning => scanning.scanStructs) scanning

theorem Consistent.scanSecondaryDMABuffer {memory : UInt64 → UInt8} (consistent : s.Consistent)
    (scanned : s.scanSecondaryDMABuffer memory = some t) : t.Consistent := by
  by_cases none : s.dmasg = []
  · rw [Bookkeeping.scanSecondaryDMABuffer, none] at scanned
    exact Option.some.inj scanned ▸ consistent
  · have scanning : s.Scanning := ⟨consistent, consistent.set none⟩
    exact ((Run.of_foldlM scanned).invariant (fun _ _ _ scanning => scanning.scanRegion) scanning).consistent

theorem Consistent.exec {call : DMACall} (consistent : s.Consistent) (executed : call.exec s = some t) :
    t.Consistent := by
  cases call with
  | captureDMARegistration reg value => exact Option.some.inj executed ▸ consistent.captureDMARegistration reg value
  | scanSecondaryDMABuffer memory => exact consistent.scanSecondaryDMABuffer executed

end

/-! ## The device of the fuzzing loop -/

/-- The regions that the fuzzing loop knows, where no length is negative. -/
structure Matches (stage2 : Stage2Device) (s : Bookkeeping) : Prop where
  dmaRegs : s.dmaRegs = mapValues (fun sz => (sz.val : Int)) stage2.dmaRegs
  dmasg : s.dmasg = stage2.dmasg.map fun region => (region.addr, UInt64.ofNat region.len)
  starts : s.dmaStarts = stage2.dmaStarts
  set : s.level1DmaSet = stage2.level1DmaSet

theorem Matches.captureDMARegistration {stage2 : Stage2Device} {s : Bookkeeping} (same : Matches stage2 s) (reg : Int)
    (value : UInt64) : Matches (stage2.captureDMARegistration reg value) (s.captureDMARegistration reg value) := by
  unfold Bookkeeping.captureDMARegistration Stage2Device.captureDMARegistration
  rw [same.dmaRegs, lookup_mapValues]
  cases stage2.dmaRegs.lookup (UInt64.ofInt reg) with
  | none => exact same
  | some sz =>
    dsimp only [Option.map_some]
    rw [same.starts]
    by_cases known : pageAligned value ∈ stage2.dmaStarts
    · rw [if_pos known, if_pos known]
      exact ⟨rfl, same.dmasg, rfl, rfl⟩
    · have length : UInt64.ofInt (if (sz.val : Int) = 0 then 4096 else sz.val) =
          UInt64.ofNat (if sz = 0 then 4096 else sz).val := by
        by_cases zero : sz = 0
        · rw [if_pos (by simp [zero]), if_pos zero]
          rfl
        · have positive : ¬ (sz.val : Int) = 0 := fun none => zero (Fin.ext (Int.ofNat.inj none))
          have small := sz.isLt
          rw [if_neg positive, if_neg zero]
          exact congrArg UInt64.ofNat (by omega)
      rw [if_neg known, if_neg known, length]
      refine ⟨rfl, ?_, rfl, rfl⟩
      dsimp only
      rw [same.dmasg, List.map_append, List.map_singleton]

/-! ## Calls that return -/

/-- Every structure size is positive and divides the length of its regions. -/
def Divides (infos : AList fun _ : Int => List SecondaryDMAInfo) : Prop :=
  ∀ dmaLen, ∀ entries ∈ infos.lookup dmaLen, ∀ info ∈ entries, 0 < info.structSz ∧ info.structSz ∣ dmaLen

section

variable {infos : AList fun _ : Int => List SecondaryDMAInfo} (divides : Divides infos) {s : Bookkeeping}

theorem addSecondary_infos (s : Bookkeeping) (region : UInt64 × UInt64) :
    (s.addSecondary region).secondaryDmaInfos = s.secondaryDmaInfos := by
  unfold addSecondary
  split_ifs <;> rfl

theorem captureDMARegistration_infos (s : Bookkeeping) (reg : Int) (value : UInt64) :
    (s.captureDMARegistration reg value).secondaryDmaInfos = s.secondaryDmaInfos := by
  unfold captureDMARegistration
  cases s.dmaRegs.lookup (UInt64.ofInt reg) with
  | none => rfl
  | some sz =>
    dsimp only
    split_ifs <;> rfl

theorem scanStructs_returns (memory : UInt64 → UInt8) (dmaAddr : UInt64) {dmaLen : Int} {info : SecondaryDMAInfo}
    (positive : 0 < info.structSz) (dvd : info.structSz ∣ dmaLen) (same : s.secondaryDmaInfos = infos) :
    ∃ t, scanStructs memory dmaAddr dmaLen s info = some t ∧ t.secondaryDmaInfos = infos := by
  have passes : ¬ (SecondaryDMAInfo.traps info dmaLen = true ∨ dmaLen.tmod info.structSz ≠ 0) := by
    rw [SecondaryDMAInfo.traps, decide_eq_true_eq, Int.tmod_eq_zero_of_dvd dvd]
    omega
  refine ⟨_, if_neg passes, ?_⟩
  exact List.foldlRecOn (motive := fun t : Bookkeeping => t.secondaryDmaInfos = infos) _ _ same fun s same i _ =>
    (addSecondary_infos s _).trans same

include divides

theorem scanRegion_returns (memory : UInt64 → UInt8) (region : UInt64 × UInt64) (same : s.secondaryDmaInfos = infos) :
    ∃ t, scanRegion memory s region = some t ∧ t.secondaryDmaInfos = infos := by
  have each : ∀ info ∈ (s.secondaryDmaInfos.lookup (asInt region.2)).getD [],
      0 < info.structSz ∧ info.structSz ∣ asInt region.2 := by
    rw [same]
    cases found : infos.lookup (asInt region.2) with
    | none => exact nofun
    | some entries => exact divides _ entries found
  exact foldlM_returns (I := fun t : Bookkeeping => t.secondaryDmaInfos = infos) (fun s info member same =>
    scanStructs_returns memory region.1 (each info member).1 (each info member).2 same) same

theorem exec_returns (call : DMACall) (same : s.secondaryDmaInfos = infos) :
    ∃ t, call.exec s = some t ∧ t.secondaryDmaInfos = infos := by
  cases call with
  | captureDMARegistration reg value => exact ⟨_, rfl, (captureDMARegistration_infos s reg value).trans same⟩
  | scanSecondaryDMABuffer memory =>
    exact foldlM_returns (I := fun t : Bookkeeping => t.secondaryDmaInfos = infos) (fun s region _ same =>
      scanRegion_returns divides memory region same) same

end

/-- What is known of the regions of a new model after the calls. -/
structure Kept (dmaRegs : AList fun _ : UInt64 => Int) (infos : AList fun _ : Int => List SecondaryDMAInfo)
    (calls : List DMACall) : Prop where
  consistent : ∀ s, calls.foldlM DMACall.exec (fresh dmaRegs infos) = some s → s.Consistent
  returns : Divides infos → ∃ s, calls.foldlM DMACall.exec (fresh dmaRegs infos) = some s

/-- Register writes and scans in any order keep the lists consistent. -/
theorem kept_of_calls (dmaRegs : AList fun _ : UInt64 => Int) (infos : AList fun _ : Int => List SecondaryDMAInfo)
    (calls : List DMACall) : Kept dmaRegs infos calls := by
  constructor
  · intro s executed
    exact (Run.of_foldlM executed).invariant (fun _ _ _ consistent => consistent.exec) (consistent_fresh dmaRegs infos)
  · intro divides
    obtain ⟨s, executed, -⟩ := foldlM_returns (I := fun t : Bookkeeping => t.secondaryDmaInfos = infos)
      (fun s call _ same => exec_returns divides call same) (rfl : (fresh dmaRegs infos).secondaryDmaInfos = infos)
    exact ⟨s, executed⟩

/-! ## The vector under the loop -/

/-- Why a scan does not return: a division traps or the assertion fails, or the loop reads an entry of `dmasg` after
    one of its own `push_back`s has moved the vector. -/
inductive Fault where
  | stops
  | moved
  deriving DecidableEq

/-- One pass of the loop over the regions.  The vector has moved if it is longer than `bound`. -/
def visit (memory : UInt64 → UInt8) (bound : Nat) (s : Bookkeeping) (region : UInt64 × UInt64) :
    Except Fault Bookkeeping :=
  if bound < s.dmasg.length then .error .moved
  else (scanRegion memory s region).elim (.error .stops) .ok

/-- The loop keeps the pointers that it has started with.  `free` is the number of entries that fit behind the last
    one before the vector moves. -/
def scanInPlace (s : Bookkeeping) (free : Nat) (memory : UInt64 → UInt8) : Except Fault Bookkeeping :=
  s.dmasg.foldlM (visit memory (s.dmasg.length + free)) s

/-- The structures in a region. -/
def regionStructs (infos : AList fun _ : Int => List SecondaryDMAInfo) (region : UInt64 × UInt64) : Nat :=
  (((infos.lookup (asInt region.2)).getD []).map fun info => ((asInt region.2).tdiv info.structSz).toNat).sum

/-- The structures that a scan looks into. -/
def structs (s : Bookkeeping) : Nat := (s.dmasg.map (regionStructs s.secondaryDmaInfos)).sum

end Bookkeeping

/-- A call with the vector in memory; `free` is used by a scan. -/
def DMACall.execInPlace (s : Bookkeeping) (call : DMACall × Nat) : Except Bookkeeping.Fault Bookkeeping :=
  match call.1 with
  | captureDMARegistration reg value => .ok (s.captureDMARegistration reg value)
  | scanSecondaryDMABuffer memory => s.scanInPlace call.2 memory

namespace Bookkeeping

section

variable {memory : UInt64 → UInt8} {bound : Nat} {regions : List (UInt64 × UInt64)} {s t : Bookkeeping}

theorem visit_eq_ok {region : UInt64 × UInt64} (visited : visit memory bound s region = .ok t) :
    scanRegion memory s region = some t := by
  unfold visit at visited
  split_ifs at visited
  cases scanned : scanRegion memory s region with
  | none =>
    rw [scanned] at visited
    cases visited
  | some u =>
    rw [scanned] at visited
    cases visited
    rfl

theorem foldlM_visit_eq_ok (visited : regions.foldlM (visit memory bound) s = .ok t) :
    regions.foldlM (scanRegion memory) s = some t := by
  induction regions generalizing s with
  | nil =>
    cases visited
    rfl
  | cons region regions ih =>
    rw [List.foldlM_cons] at visited ⊢
    cases first : visit memory bound s region with
    | error fault =>
      rw [first] at visited
      cases visited
    | ok u =>
      rw [first] at visited
      rw [visit_eq_ok first]
      exact ih visited

/-- Where the vector has not moved, the regions that were known before are visited. -/
theorem scanInPlace_eq_ok {free : Nat} (scanned : s.scanInPlace free memory = .ok t) :
    s.scanSecondaryDMABuffer memory = some t :=
  foldlM_visit_eq_ok scanned

theorem execInPlace_eq_ok {call : DMACall × Nat} (executed : DMACall.execInPlace s call = .ok t) :
    call.1.exec s = some t := by
  obtain ⟨call, free⟩ := call
  cases call with
  | captureDMARegistration reg value =>
    cases executed
    rfl
  | scanSecondaryDMABuffer memory => exact scanInPlace_eq_ok executed

/-! ### Room -/

theorem length_addSecondary (s : Bookkeeping) (region : UInt64 × UInt64) :
    (s.addSecondary region).dmasg.length ≤ s.dmasg.length + 1 := by
  unfold addSecondary
  split_ifs
  · simp
  · exact Nat.le_succ _

theorem length_foldl_addSecondary (found : List (UInt64 × UInt64)) (s : Bookkeeping) :
    (found.foldl addSecondary s).dmasg.length ≤ s.dmasg.length + found.length := by
  induction found generalizing s with
  | nil => exact Nat.le_refl _
  | cons region found ih =>
    have here := length_addSecondary s region
    have later := ih (s.addSecondary region)
    rw [List.foldl_cons, List.length_cons]
    omega

theorem length_scanStructs {dmaAddr : UInt64} {dmaLen : Int} {info : SecondaryDMAInfo}
    (scanned : scanStructs memory dmaAddr dmaLen s info = some t) :
    t.dmasg.length ≤ s.dmasg.length + (dmaLen.tdiv info.structSz).toNat := by
  unfold scanStructs at scanned
  split_ifs at scanned
  obtain rfl := Option.some.inj scanned
  have length := length_foldl_addSecondary (((List.range (dmaLen.tdiv info.structSz).toNat).map Nat.cast).map fun i : Int =>
    (secondaryDmaAddr memory (dmaAddr + UInt64.ofInt (i * info.structSz) + UInt64.ofInt info.offset),
      UInt64.ofInt info.l2DmaSz)) s
  rw [List.foldl_map, List.length_map, List.length_map, List.length_range] at length
  simp only [bind_pure_comp, List.map_eq_map]
  exact length

theorem foldlM_scanStructs_length {dmaAddr : UInt64} {dmaLen : Int} {entries : List SecondaryDMAInfo}
    (scanned : entries.foldlM (scanStructs memory dmaAddr dmaLen) s = some t) :
    t.dmasg.length ≤ s.dmasg.length + (entries.map fun info => (dmaLen.tdiv info.structSz).toNat).sum := by
  induction entries generalizing s with
  | nil =>
    cases scanned
    exact Nat.le_refl _
  | cons info entries ih =>
    rw [List.foldlM_cons] at scanned
    obtain ⟨u, first, rest⟩ := Option.bind_eq_some_iff.mp scanned
    have here := length_scanStructs first
    have later := ih rest
    rw [List.map_cons, List.sum_cons]
    omega

variable {infos : AList fun _ : Int => List SecondaryDMAInfo}

theorem length_scanRegion (same : s.secondaryDmaInfos = infos) {region : UInt64 × UInt64}
    (scanned : scanRegion memory s region = some t) :
    t.dmasg.length ≤ s.dmasg.length + regionStructs infos region := by
  rw [← same]
  exact foldlM_scanStructs_length scanned

variable (divides : Divides infos)

include divides

theorem visit_cases (memory : UInt64 → UInt8) (bound : Nat) (region : UInt64 × UInt64) (same : s.secondaryDmaInfos = infos) :
    bound < s.dmasg.length ∧ visit memory bound s region = .error .moved ∨
      ∃ t, visit memory bound s region = .ok t ∧ t.secondaryDmaInfos = infos ∧
        t.dmasg.length ≤ s.dmasg.length + regionStructs infos region := by
  obtain ⟨t, scanned, kept⟩ := scanRegion_returns divides memory region same
  unfold visit
  split_ifs with long
  · exact .inl ⟨long, rfl⟩
  · exact .inr ⟨t, by rw [scanned]; rfl, kept, length_scanRegion same scanned⟩

/-- A scan goes through or meets a vector that has moved. -/
theorem foldlM_visit_cases (memory : UInt64 → UInt8) (bound : Nat) (regions : List (UInt64 × UInt64)) (same : s.secondaryDmaInfos = infos) :
    regions.foldlM (visit memory bound) s = .error .moved ∨
      ∃ t, regions.foldlM (visit memory bound) s = .ok t ∧ t.secondaryDmaInfos = infos := by
  induction regions generalizing s with
  | nil => exact .inr ⟨s, rfl, same⟩
  | cons region regions ih =>
    rw [List.foldlM_cons]
    cases visit_cases divides memory bound region same with
    | inl moved =>
      rw [moved.2]
      exact .inl rfl
    | inr visited =>
      obtain ⟨t, first, kept, -⟩ := visited
      rw [first]
      exact ih kept

theorem scanInPlace_ne_stops (same : s.secondaryDmaInfos = infos) (free : Nat) (memory : UInt64 → UInt8) :
    s.scanInPlace free memory ≠ .error .stops := by
  intro stops
  cases foldlM_visit_cases divides memory (s.dmasg.length + free) s.dmasg same with
  | inl moved => cases moved.symm.trans stops
  | inr scanned =>
    obtain ⟨t, scanned, -⟩ := scanned
    cases scanned.symm.trans stops

theorem foldlM_visit_room (regions : List (UInt64 × UInt64)) (same : s.secondaryDmaInfos = infos)
    (room : s.dmasg.length + (regions.map (regionStructs infos)).sum ≤ bound) :
    ∃ t, regions.foldlM (visit memory bound) s = .ok t := by
  induction regions generalizing s with
  | nil => exact ⟨s, rfl⟩
  | cons region regions ih =>
    rw [List.map_cons, List.sum_cons] at room
    rw [List.foldlM_cons]
    cases visit_cases divides memory bound region same with
    | inl moved => omega
    | inr visited =>
      obtain ⟨t, first, kept, length⟩ := visited
      rw [first]
      exact ih kept (by omega)

/-- With room for one region per structure the vector does not move. -/
theorem scanInPlace_room (same : s.secondaryDmaInfos = infos) {free : Nat} (room : s.structs ≤ free) :
    ∃ t, s.scanInPlace free memory = .ok t := by
  apply foldlM_visit_room divides s.dmasg same
  rw [structs, same] at room
  omega

theorem execInPlace_cases (call : DMACall × Nat) (same : s.secondaryDmaInfos = infos) :
    DMACall.execInPlace s call = .error .moved ∨
      ∃ t, DMACall.execInPlace s call = .ok t ∧ t.secondaryDmaInfos = infos := by
  obtain ⟨call, free⟩ := call
  cases call with
  | captureDMARegistration reg value => exact .inr ⟨_, rfl, (captureDMARegistration_infos s reg value).trans same⟩
  | scanSecondaryDMABuffer memory => exact foldlM_visit_cases divides memory _ s.dmasg same

theorem runInPlace_cases (calls : List (DMACall × Nat)) (same : s.secondaryDmaInfos = infos) (consistent : s.Consistent) :
    calls.foldlM DMACall.execInPlace s = .error .moved ∨
      ∃ t, calls.foldlM DMACall.execInPlace s = .ok t ∧ t.secondaryDmaInfos = infos ∧ t.Consistent := by
  induction calls generalizing s with
  | nil => exact .inr ⟨s, rfl, same, consistent⟩
  | cons call calls ih =>
    rw [List.foldlM_cons]
    cases execInPlace_cases divides call same with
    | inl moved =>
      rw [moved]
      exact .inl rfl
    | inr executed =>
      obtain ⟨t, first, kept⟩ := executed
      rw [first]
      exact ih kept (consistent.exec (execInPlace_eq_ok first))

end

end Bookkeeping

end DevFuzz.Stage2
