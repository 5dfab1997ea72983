import DevFuzz.Probe.SolverValues
import DevFuzz.PeX.ConfigSpace

/-! # The solution log, record by record

The log has a record for each symbolic read: its name and its solved bytes.  The loop
of `codegen` is between two records whenever it has read a whole one
(`foldlM_record`), so it stores each MMIO record on its own and passes over the
port records (`collect_records`).
-/

namespace DevFuzz.Probe

open DevFuzz.Lib.Bytes DevFuzz.Lib.Strings

/-! ## Port reads -/

/-- The name that `createExpressionPort` gives to a read from a BAR. -/
def createExpressionPort (read : MmioRead) : Text :=
  "pex symdev bar ".toList ++ decimal read.bar ++ " pio @ ".toList ++ hexval read.baraddr ++
    " size ".toList ++ decimal read.size ++ " pc=".toList ++ hexval read.pc

/-- It is the name of the symbolic value that the port read yields. -/
theorem createExpressionPort_eq_pioName (s : PeX.State) (i : Fin 6) (address : BitVec 64) (w : PeX.Width)
    (nextSymbVarId lastSymbolicId : Nat) :
    createExpressionPort
        ⟨i, (address - PeX.getBarLowAddr s i).toNat, w.size, s.pc.toNat, nextSymbVarId, lastSymbolicId⟩ =
      PeX.pioName s i address w := rfl

def MmioRead.portName (read : MmioRead) : Text :=
  getUniqueVarName read.nextSymbVarId read.lastSymbolicId ( createExpressionPort read)

theorem MmioRead.portName_eq (read : MmioRead) :
    read.portName = 'v' :: decimal read.nextSymbVarId ++ "_pex_symdev_bar_".toList ++ decimal read.bar ++
      "_pio___".toList ++ read.nameTail := by
  have known : " pio @ ".toList.map filtered = "_pio___".toList := by simp [filtered, isAlnum]
  exact read.uniqueVarName_eq known

theorem strip_debugLine_portName (read : MmioRead) :
    strip (debugLine read.portName) = "PeX: ".toList ++ read.portName := by
  rw [MmioRead.portName_eq]
  apply strip_debugLine (by simp)
  intro char member
  rw [MmioRead.nameTail, ← List.append_assoc, List.getLast?_append_of_ne_nil _ (decimal_ne_nil _)] at member
  exact decimal_solid _ char (List.mem_of_getLast? member)

/-- The one `m` of a port name is that of `symdev`. -/
theorem count_portName (read : MmioRead) : ("PeX: ".toList ++ read.portName).count 'm' = 1 := by
  have decimals : ∀ value, (decimal value).count 'm' = 0 := fun value => List.count_eq_zero.mpr (decimal_no_m value)
  have hexvals : ∀ value, (hexval value).count 'm' = 0 := fun value => List.count_eq_zero.mpr (hexval_no_m value)
  rw [MmioRead.portName_eq, MmioRead.nameTail]
  simp only [List.count_append, List.count_cons, decimals, hexvals]
  decide

/-! ## Records -/

/-- A symbolic read of either kind with its solved bytes. -/
inductive Record where
  | mmio (read : SolvedRead)
  | port (read : SolvedRead)

/-- The lines of `PeX::generateTestCase` for one object. -/
def Record.lines : Record → List Text
  | .mmio read => generateTestCase read.toMmioRead read.bytes
  | .port read => debugLine read.portName :: read.bytes.map fun byte => debugLine (hexval byte.toNat)

def Record.mmio? : Record → Option SolvedRead
  | .mmio read => some read
  | .port _ => none

/-- The MMIO reads of the log, in the order of the log. -/
def mmioReads (records : List Record) : List SolvedRead := records.filterMap Record.mmio?

/-- The size of the read, and the number that its bytes are made into. -/
def SolvedRead.entry (read : SolvedRead) : Int × Int := (read.size, beValue read.bytes)

/-- What `reg_model` has for the records: a list for each address of an MMIO read, with an entry for each of its
    reads. -/
structure Parsed (records : List Record) (model : RegModel Text) : Prop where
  nodup : (model.map Prod.fst).Nodup
  keys : ∀ key, key ∈ model.map Prod.fst ↔ ∃ read ∈ mmioReads records, key = hexval read.baraddr
  entries : ∀ addr, model.get (hexval addr) =
    ((mmioReads records).filter fun read => read.baraddr = addr).map SolvedRead.entry

/-! ## One record -/

theorem codegenLine_idle {s : Parse} (idle : s.size = 0) {line : Text}
    (other : search "mmio".toList (strip line) = false) : codegenLine s line = .ok s := by
  rw [codegenLine]
  simp only [other, idle, ne_eq, not_true_eq_false, Bool.false_eq_true, if_false]

theorem codegenLine_portName {s : Parse} (idle : s.size = 0) (read : MmioRead) :
    codegenLine s (debugLine read.portName) = .ok s := by
  apply codegenLine_idle idle
  rw [strip_debugLine_portName]
  exact search_eq_false_of_count 'm' (by rw [count_portName]; decide)

/-- Between two records, byte lines are passed over. -/
theorem foldlM_bytes_idle {s : Parse} (idle : s.size = 0) (bytes : List UInt8) :
    (bytes.map fun byte => debugLine (hexval byte.toNat)).foldlM codegenLine s = .ok s := by
  induction bytes with
  | nil => rfl
  | cons byte bytes ih =>
    have other : search "mmio".toList (strip (debugLine (hexval byte.toNat))) = false := by
      rw [strip_debugLine_hexval]
      refine search_eq_false ?_
      rw [List.mem_append, not_or]
      exact ⟨by decide, hexval_no_m byte.toNat⟩
    rw [List.map_cons, List.foldlM_cons, codegenLine_idle idle other]
    exact ih

/-- What a record adds to `reg_model`. -/
def Record.store (model : RegModel Text) : Record → RegModel Text
  | .mmio read => model.record (hexval read.baraddr) read.entry
  | .port _ => model

/-- A record that is met between two records leaves the loop between two records. -/
theorem foldlM_record (addr : Text) (model : RegModel Text) (record : Record) :
    ∃ addr', record.lines.foldlM codegenLine (Parse.between addr model) =
      .ok (Parse.between addr' (record.store model)) := by
  cases record with
  | mmio read => exact ⟨_, codegen_generateTestCase addr model read⟩
  | port read =>
    refine ⟨addr, ?_⟩
    rw [Record.lines, List.foldlM_cons, codegenLine_portName rfl]
    exact foldlM_bytes_idle rfl read.bytes

/-! ## The log -/

theorem foldlM_records (addr : Text) (model : RegModel Text) (records : List Record) :
    ∃ addr', (records.flatMap Record.lines).foldlM codegenLine (Parse.between addr model) =
      .ok (Parse.between addr' (records.foldl Record.store model)) := by
  induction records generalizing addr model with
  | nil => exact ⟨addr, rfl⟩
  | cons record records ih =>
    obtain ⟨addr', first⟩ := foldlM_record addr model record
    obtain ⟨last, rest⟩ := ih addr' (record.store model)
    refine ⟨last, ?_⟩
    rw [List.flatMap_cons, List.foldlM_append, first]
    exact rest

theorem Parsed.store {records : List Record} {model : RegModel Text} (parsed : Parsed records model) (record : Record) :
    Parsed (records ++ [record]) (record.store model) := by
  cases record with
  | port read =>
    have same : mmioReads (records ++ [.port read]) = mmioReads records := by
      simp [mmioReads, Record.mmio?]
    exact ⟨parsed.nodup, by rw [same]; exact parsed.keys, by rw [same]; exact parsed.entries⟩
  | mmio read =>
    have grown : mmioReads (records ++ [.mmio read]) = mmioReads records ++ [read] := by
      simp [mmioReads, Record.mmio?]
    refine ⟨nodup_record parsed.nodup _ _, fun key => ?_, fun addr => ?_⟩
    · rw [grown, Record.store, mem_keys_record, parsed.keys]
      simp only [List.mem_append, List.mem_singleton, or_and_right, exists_or, exists_eq_left]
      exact or_comm
    · rw [grown, Record.store, RegModel.get_record, parsed.entries, List.filter_append, List.map_append]
      by_cases here : read.baraddr = addr
      · simp [here]
      · have other : hexval addr ≠ hexval read.baraddr := fun same => here (hexval_inj.mp same).symm
        simp [here, other]

theorem parsed_foldl (records : List Record) : Parsed records (records.foldl Record.store []) := by
  induction records using List.reverseRecOn with
  | nil => exact ⟨List.nodup_nil, fun key => by simp [mmioReads], fun addr => by simp [RegModel.get, mmioReads]⟩
  | append_singleton records record ih =>
    rw [List.foldl_append]
    exact ih.store record

/-- For every sequence of records, the loop over the log ends with the addresses of the MMIO records, each with the
    entries of its records in the order of the log. -/
theorem collect_records (records : List Record) :
    ∃ model, collect (records.flatMap Record.lines) = .ok model ∧ Parsed records model := by
  obtain ⟨addr, run⟩ := foldlM_records [] [] records
  refine ⟨records.foldl Record.store [], ?_, parsed_foldl records⟩
  rw [collect, run]
  rfl

end DevFuzz.Probe
