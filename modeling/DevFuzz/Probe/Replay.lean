import DevFuzz.Probe.Model

/-! # Replaying a recorded probe

A trace of recorded reads goes through `codegen` into a model, and the fresh
model is read with the recorded addresses and sizes.  Because no block ends in
`break`, the replay is faithful exactly when there is a single block; because
`generate_code_block` has no case for 8-byte reads, none of the recorded reads
may be 8 bytes wide (`faithfulReplay_iff`).
-/

namespace DevFuzz.Probe

open DevFuzz.Lib.Bytes

/-- A recorded MMIO read. -/
structure Recorded where
  addr : UInt64
  size : Nat
  value : Nat
  size_mem : size ∈ [1, 2, 4, 8]
  value_lt : value < 256 ^ size

def Recorded.entry (r : Recorded) : Int × Int := (r.size, r.value)

/-- `reg_model` after all records of the trace. -/
def RegModel.ofTrace (records : List Recorded) : RegModel UInt64 :=
  records.foldl (fun model r => model.record r.addr r.entry) []

/-- The model emitted for the records, freshly constructed. -/
def HWModel.ofTrace (records : List Recorded) : HWModel :=
  HWModel.fresh (codegen (RegModel.ofTrace records))

/-- The recorded sequence of reads, the `i`-th of them into `dests i`. -/
def replayRequests (records : List Recorded) (dests : Nat → Memory) : List Request :=
  records.mapIdx fun i r => ⟨r.addr, r.size, dests i⟩

/-- The model just before the `i`-th read of the replay. -/
def beforeRead (records : List Recorded) (dests : Nat → Memory) (i : Nat) : HWModel :=
  (HWModel.ofTrace records).after ((replayRequests records dests).take i)

/-- The counter of an address. -/
def HWModel.cnt? (model : HWModel) (addr : UInt64) : Option Nat :=
  (model.block? addr).map LiveBlock.cnt

/-- What `dest` holds after the block of `addr` alone. -/
def HWModel.ownDest (model : HWModel) (addr : UInt64) (dest : Memory) : Memory :=
  match model.block? addr with
  | some live => (live.body dest).2
  | none => dest

/-- One read of the replay does what was recorded, on the account of its own address alone. -/
structure ReadFaithful (before : HWModel) (r : Recorded) (dest : Memory) : Prop where
  ret : (before.read dest r.addr r.size).1.ret = r.size
  value : loadLE (before.read dest r.addr r.size).1.dest 0 r.size = r.value
  counters : ∀ addr, addr ≠ r.addr →
    (before.read dest r.addr r.size).2.cnt? addr = before.cnt? addr
  source : (before.read dest r.addr r.size).1.dest = before.ownDest r.addr dest

/-- Every read of the replay is faithful, whatever the destinations held before. -/
def FaithfulReplay (records : List Recorded) : Prop :=
  ∀ (dests : Nat → Memory) (i : Nat) (r : Recorded), records[i]? = some r →
    ReadFaithful (beforeRead records dests i) r (dests i)

/-! ## Traces of one address -/

/-- Records of one address all go into its entry. -/
theorem foldl_record_same {addr : UInt64} (records : List Recorded)
    (same : ∀ r ∈ records, r.addr = addr) (entries : List (Int × Int)) :
    records.foldl (fun model r => RegModel.record r.addr r.entry model) [(addr, entries)] =
      [(addr, entries ++ records.map Recorded.entry)] := by
  induction records generalizing entries with
  | nil => simp
  | cons r records ih =>
    have here : r.addr = addr := same r List.mem_cons_self
    have rest := ih (fun r member => same r (List.mem_cons_of_mem _ member)) (entries ++ [r.entry])
    simp only [List.foldl_cons, RegModel.record, here, if_true, rest, List.map_cons,
      List.append_assoc, List.singleton_append]

theorem ofTrace_same {addr : UInt64} {records : List Recorded} (nonempty : records ≠ [])
    (same : ∀ r ∈ records, r.addr = addr) :
    RegModel.ofTrace records = [(addr, records.map Recorded.entry)] := by
  cases records with
  | nil => exact absurd rfl nonempty
  | cons r records =>
    -- the first record creates the entry, the others find it
    have here : r.addr = addr := same r List.mem_cons_self
    have rest := foldl_record_same records (fun r member => same r (List.mem_cons_of_mem _ member))
      [r.entry]
    simpa [RegModel.ofTrace, RegModel.record, here] using rest

/-- The model of records of one address after `cnt` reads. -/
def oneBlock (addr : UInt64) (entries : List (Int × Int)) (cnt : Nat) : HWModel where
  limit := entries.length
  probeLen := cnt
  blocks := [⟨generateCodeBlock addr entries, cnt⟩]

theorem oneBlock_read {addr : UInt64} {entries : List (Int × Int)} {cnt : Nat}
    (probing : cnt ≤ entries.length) (dest : Memory) (size : Nat) :
    (oneBlock addr entries cnt).read dest addr size =
      (⟨size, storeEntry dest entries[cnt]?⟩, oneBlock addr entries (cnt + 1)) := by
  have selected : (generateCodeBlock addr entries).addr = addr := rfl
  rw [HWModel.read_of_probing probing]
  simp only [oneBlock, switch, selected, if_true, fallThrough, body_generateCodeBlock]

/-- Before the `i`-th read the one counter stands at `i`. -/
theorem beforeRead_same {addr : UInt64} {records : List Recorded} (nonempty : records ≠ [])
    (same : ∀ r ∈ records, r.addr = addr) (dests : Nat → Memory) {i : Nat} (bound : i ≤ records.length) :
    beforeRead records dests i = oneBlock addr (records.map Recorded.entry) i := by
  induction i with
  | zero =>
    simp [beforeRead, HWModel.ofTrace, ofTrace_same nonempty same, HWModel.fresh, codegen, oneBlock]
  | succ i ih =>
    -- the `i`-th read is the last one of the first `i + 1`
    have inside : i < (replayRequests records dests).length := by simp [replayRequests]; omega
    have here : i < records.length := by omega
    have request : (replayRequests records dests)[i] = ⟨addr, records[i].size, dests i⟩ := by
      simp [replayRequests, same records[i] (List.getElem_mem _)]
    have prior := ih (by omega)
    unfold beforeRead at prior ⊢
    rw [← List.take_append_getElem inside, HWModel.after_append, prior, request]
    simp [oneBlock_read (show i ≤ (records.map Recorded.entry).length by simp; omega)]

theorem readFaithful_oneBlock {records : List Recorded} {r : Recorded} {i : Nat}
    (narrow : r.size ≠ 8) (recorded : records[i]? = some r) (dest : Memory) :
    ReadFaithful (oneBlock r.addr (records.map Recorded.entry) i) r dest := by
  have bound : i < records.length := (List.getElem?_eq_some_iff.mp recorded).1
  have entry : (records.map Recorded.entry)[i]? = some r.entry := by simp [recorded]
  have probing : i ≤ (records.map Recorded.entry).length := by simp; omega
  have read : (oneBlock r.addr (records.map Recorded.entry) i).read dest r.addr r.size = _ :=
    oneBlock_read probing dest r.size
  have own : (oneBlock r.addr (records.map Recorded.entry) i).block? r.addr =
      some ⟨generateCodeBlock r.addr (records.map Recorded.entry), i⟩ := by
    simp [HWModel.block?, oneBlock, generateCodeBlock]
  -- of the four recorded sizes only 8 has no assignment
  have stored : storeEntry dest (some r.entry) = storeLE dest 0 r.size r.value := by
    have sizes : (r.size : Int) = 1 ∨ (r.size : Int) = 2 ∨ (r.size : Int) = 4 := by
      have := r.size_mem
      simp only [List.mem_cons, List.not_mem_nil, or_false] at this
      omega
    have fits : (r.value : Int) % 256 ^ r.size = r.value :=
      Int.emod_eq_of_lt (by omega) (by exact_mod_cast r.value_lt)
    simp only [storeEntry, Recorded.entry, if_pos sizes, Int.toNat_natCast, fits]
  refine ⟨by rw [read], ?_, ?_, ?_⟩
  · rw [read, entry, stored, loadLE_storeLE]
    exact Nat.mod_eq_of_lt r.value_lt
  · intro addr other
    have absent : ∀ cnt, (oneBlock r.addr (records.map Recorded.entry) cnt).cnt? addr = none := by
      intro cnt
      simp [HWModel.cnt?, HWModel.block?, oneBlock, generateCodeBlock, other.symm]
    rw [read, absent, absent]
  · simp only [read, HWModel.ownDest, own, body_generateCodeBlock]

/-! ## Traces of several addresses -/

theorem mem_keys_foldl (records : List Recorded) (model : RegModel UInt64) (addr : UInt64) :
    addr ∈ (records.foldl (fun model r => RegModel.record r.addr r.entry model) model).map Prod.fst ↔
      addr ∈ model.map Prod.fst ∨ ∃ r ∈ records, r.addr = addr := by
  induction records generalizing model with
  | nil => simp
  | cons r records ih =>
    simp only [List.foldl_cons, ih, mem_keys_record, List.mem_cons, exists_eq_or_imp]
    constructor
    · rintro ((rfl | old) | later)
      · exact .inr (.inl rfl)
      · exact .inl old
      · exact .inr (.inr later)
    · rintro (old | rfl | later)
      · exact .inl (.inr old)
      · exact .inl (.inl rfl)
      · exact .inr later

/-- The first block belongs to the first recorded address. -/
theorem head_key_foldl (records : List Recorded) (addr : UInt64) (entries : List (Int × Int))
    (rest : RegModel UInt64) :
    ∃ entries' rest',
      records.foldl (fun model r => RegModel.record r.addr r.entry model) ((addr, entries) :: rest) =
        (addr, entries') :: rest' := by
  induction records generalizing entries rest with
  | nil => exact ⟨entries, rest, rfl⟩
  | cons r records ih =>
    by_cases same : addr = r.addr
    · simpa [RegModel.record, same] using ih (entries ++ [r.entry]) rest
    · simpa [RegModel.record, same] using ih entries (RegModel.record r.addr r.entry rest)

/-- The very first read of a trace with two addresses advances the other address's counter. -/
theorem not_readFaithful_first {first other : Recorded} {records : List Recorded} (dest : Memory)
    (member : other ∈ records) (different : other.addr ≠ first.addr) :
    ¬ ReadFaithful (HWModel.ofTrace (first :: records)) first dest := by
  intro faithful
  obtain ⟨entries, rest, shape⟩ := head_key_foldl records first.addr [first.entry] []
  have model : RegModel.ofTrace (first :: records) = (first.addr, entries) :: rest := by
    simpa [RegModel.ofTrace, RegModel.record] using shape
  -- the other address has a block below the first one
  have key : other.addr ∈ rest.map Prod.fst := by
    have present := (mem_keys_foldl (first :: records) [] other.addr).mpr
      (.inr ⟨other, List.mem_cons_of_mem _ member, rfl⟩)
    have present' : other.addr ∈ (RegModel.ofTrace (first :: records)).map Prod.fst := present
    rw [model] at present'
    simpa [different] using present'
  have unchanged := faithful.counters other.addr different
  -- falling through from the first block runs every block once
  have fell : (switch first.addr (HWModel.ofTrace (first :: records)).blocks dest).1 =
      (HWModel.ofTrace (first :: records)).blocks.map fun live => { live with cnt := live.cnt + 1 } := by
    simp only [HWModel.ofTrace, HWModel.fresh, model, codegen, List.map_cons, switch,
      generateCodeBlock, if_true, fallThrough_blocks]
  rw [HWModel.read_of_probing (by simp [HWModel.ofTrace, HWModel.fresh])] at unchanged
  simp only [HWModel.cnt?, HWModel.block?, fell, List.find?_map, Option.map_map] at unchanged
  have found : ((HWModel.ofTrace (first :: records)).blocks.find?
      fun live => live.block.addr = other.addr).isSome := by
    rw [List.find?_isSome]
    obtain ⟨entry, entryMember, entryKey⟩ := List.mem_map.mp key
    refine ⟨⟨generateCodeBlock entry.1 entry.2, 0⟩, ?_, by simp [generateCodeBlock, entryKey]⟩
    simp only [HWModel.ofTrace, HWModel.fresh, codegen, model, List.map_cons, List.map_map,
      List.mem_cons, List.mem_map, Function.comp_apply]
    exact .inr ⟨entry, entryMember, rfl⟩
  obtain ⟨live, liveFound⟩ := Option.isSome_iff_exists.mp found
  have sameBlocks : ((fun live : LiveBlock => decide (live.block.addr = other.addr)) ∘
      fun live : LiveBlock => { live with cnt := live.cnt + 1 }) =
      fun live : LiveBlock => decide (live.block.addr = other.addr) := rfl
  rw [sameBlocks, liveFound] at unchanged
  simp at unchanged

/-! ## The replay -/

/-- An 8-byte record has no assignment: its read leaves `dest` as it was. -/
theorem not_readFaithful_wide {records : List Recorded} {r : Recorded} {i : Nat} (wide : r.size = 8)
    (recorded : records[i]? = some r) :
    ¬ ReadFaithful (oneBlock r.addr (records.map Recorded.entry) i) r
      (storeLE (fun _ => 0) 0 8 (r.value + 1)) := by
  intro faithful
  have bound : i < records.length := (List.getElem?_eq_some_iff.mp recorded).1
  have entry : (records.map Recorded.entry)[i]? = some r.entry := by simp [recorded]
  have value := faithful.value
  have small := r.value_lt
  have unwritten : ∀ dest, storeEntry dest (some r.entry) = dest := by
    intro dest
    simp [storeEntry, Recorded.entry, wide]
  -- so `dest` still holds `r.value + 1`, modulo the 8 bytes
  rw [oneBlock_read (show i ≤ (records.map Recorded.entry).length by simp; omega), entry,
    unwritten, wide, loadLE_storeLE] at value
  rw [wide] at small
  norm_num at value small
  omega

/-- The emitted model replays a trace exactly when the trace has at most one address and no
    8-byte read. -/
theorem faithfulReplay_iff (records : List Recorded) :
    FaithfulReplay records ↔
      (∀ r ∈ records, ∀ s ∈ records, r.addr = s.addr) ∧ ∀ r ∈ records, r.size ≠ 8 := by
  constructor
  · intro faithful
    have oneAddr : ∀ r ∈ records, ∀ s ∈ records, r.addr = s.addr := by
      cases records with
      | nil => simp
      | cons first records =>
        -- a second address would be advanced by the very first read
        have sameAsFirst : ∀ other ∈ records, other.addr = first.addr := by
          intro other member
          by_contra different
          exact not_readFaithful_first (fun _ => 0) member different
            (faithful (fun _ _ => 0) 0 first rfl)
        have all : ∀ r ∈ first :: records, r.addr = first.addr := by simpa using sameAsFirst
        intro r member s member'
        rw [all r member, all s member']
    refine ⟨oneAddr, ?_⟩
    intro r member wide
    obtain ⟨i, recorded⟩ := List.mem_iff_getElem?.mp member
    have bound : i < records.length := (List.getElem?_eq_some_iff.mp recorded).1
    have read := faithful (fun _ => storeLE (fun _ => 0) 0 8 (r.value + 1)) i r recorded
    rw [beforeRead_same (List.ne_nil_of_mem member) (fun s sMember => oneAddr s sMember r member) _
      (by omega)] at read
    exact not_readFaithful_wide wide recorded read
  · rintro ⟨oneAddr, narrow⟩ dests i r recorded
    have member : r ∈ records := List.mem_of_getElem? recorded
    have bound : i < records.length := (List.getElem?_eq_some_iff.mp recorded).1
    rw [beforeRead_same (List.ne_nil_of_mem member) (fun s sMember => oneAddr s sMember r member) _
      (by omega)]
    exact readFaithful_oneBlock (narrow r member) recorded (dests i)

/-- Two one-byte registers, each read once: the first read already falls through into the
    second block. -/
def twoRegisters : List Recorded :=
  [⟨0x10, 1, 1, by decide, by decide⟩, ⟨0x20, 1, 2, by decide, by decide⟩]

theorem not_faithfulReplay_twoRegisters : ¬ FaithfulReplay twoRegisters := by
  intro faithful
  exact not_readFaithful_first (fun _ => 0) List.mem_cons_self (by decide)
    (faithful (fun _ _ => 0) 0 _ rfl)

end DevFuzz.Probe
