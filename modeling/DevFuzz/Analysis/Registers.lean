import DevFuzz.Analysis.Emitted
import DevFuzz.Analysis.Tests
import DevFuzz.Lib.Run
import DevFuzz.Stage2.Feed

/-! # From a driver's tests to the values of a run

`extractMMIOFieldConstraint` of `stage2/src/apstage2.cpp` records what a driver compares each of its registers with,
`genStage2ModelInitCode` emits it, and `feedFuzzMMIOData` of `aplib/HWModel.h` feeds the driver from it.  What is
recorded for one test is never lost to another one on the same register, so that every sequence of decisions of the
driver can be fed: `decided_of_extracted`.
-/

namespace DevFuzz.Analysis.Registers

open DevFuzz.Lib DevFuzz.Lib.Logged DevFuzz.Lib.Bytes DevFuzz.Stage2

/-! ## The analysis -/

/-- `mmioModel`, or one of the maps of `dmaModel`. -/
abbrev Model (κ : Type) := AList fun _ : κ => Analysis.HWInput

section

variable {κ : Type} [DecidableEq κ]

/-- What is done with the results for a field.  A field is there from its first result on, with the size that it was
    read with then. -/
def recordField (model : Model κ) (key : κ) (size : Int) (cstrs : List Expression) : Option (Model κ) :=
  if cstrs = [] then some model
  else do
    let input := (model.lookup key).getD (.ofSize size)
    pure (model.insert key (← cstrs.foldlM genHWInputConstraint input))

variable {ν : Type} [Fintype ν] [DecidableEq ν] (f : SSA ν) (arrange : List ν → List ν)
  (order : List Expression → List Expression)

/-- The results come in the order of the map `preds`: any order. -/
def extractFieldConstraint (model : Model κ) (v : ν) (key : κ) (size : Int) : Option (Model κ) := do
  let cstrs ← f.buildConstraints arrange v
  recordField model key size (order cstrs)

/-- `mmio_reads` holds, for each call that reads, the offsets and sizes of the registers that it may read. -/
def extractMMIOFieldConstraint (mmioReads : List (ν × List (Int × Int))) : Option (Model Int) :=
  mmioReads.foldlM (fun model p => p.2.foldlM (fun model offSz =>
    if offSz.1 = -1 then none else extractFieldConstraint f arrange order model p.1 offSz.1 offSz.2) model) ∅

/-! ## What is recorded stays recorded -/

/-- The values and masks of a field have only become more. -/
structure Grows (a b : Analysis.HWInput) : Prop where
  values : ∀ v ∈ a.valueSet, v ∈ b.valueSet
  bits : ∀ v ∈ a.bitsSet, v ∈ b.bitsSet

theorem Grows.refl (a : Analysis.HWInput) : Grows a a := ⟨fun _ member => member, fun _ member => member⟩

theorem grows_insertValue (a : Analysis.HWInput) (v : UInt64) : Grows a (a.insertValue v) :=
  ⟨fun _ member => OrderedSet.mem_insert.mpr (.inr member), fun _ member => member⟩

theorem grows_insertBits (a : Analysis.HWInput) (v : UInt64) : Grows a (a.insertBits v) :=
  ⟨fun _ member => member, fun _ member => OrderedSet.mem_insert.mpr (.inr member)⟩

theorem grows_insertRanges (a : Analysis.HWInput) (start stop : Int64) : Grows a (a.insertRanges start stop) :=
  ⟨fun _ member => member, fun _ member => member⟩

theorem grows_insertTest (a : Analysis.HWInput) (mask const : UInt64) : Grows a (a.insertTest mask const) :=
  grows_insertBits a _

/-- Whichever way the operand is shifted, one mask is inserted. -/
theorem grows_insertBitTest {a b : Analysis.HWInput} {const : UInt64} {lhs rhs : Expression}
    (inserted : a.insertBitTest const lhs rhs = some b) : Grows a b := by
  simp only [HWInput.insertBitTest, Option.bind_eq_bind, Option.bind_eq_some_iff] at inserted
  obtain ⟨⟨mask, other⟩, -, inserted⟩ := inserted
  split at inserted
  · simp only [Option.bind_eq_some_iff] at inserted
    obtain ⟨_, -, _, -, _, -, result⟩ := inserted
    cases result
    exact grows_insertTest a _ _
  · simp only [Option.bind_eq_some_iff] at inserted
    obtain ⟨_, -, _, -, _, -, result⟩ := inserted
    cases result
    exact grows_insertTest a _ _
  · cases inserted
    exact grows_insertTest a _ _

theorem grows_insertUpper (a : Analysis.HWInput) (strict : Bool) (const : UInt64) : Grows a (a.insertUpper strict const) := by
  unfold HWInput.insertUpper
  split_ifs
  · exact grows_insertBits a _
  · exact grows_insertRanges a _ _

theorem grows_insertLower (a : Analysis.HWInput) (const : UInt64) : Grows a (a.insertLower const) := by
  unfold HWInput.insertLower
  split_ifs
  · exact grows_insertBits a _
  · exact grows_insertRanges a _ _

theorem grows_genHWInputConstraint {a b : Analysis.HWInput} {e : Expression}
    (recorded : genHWInputConstraint a e = some b) : Grows a b := by
  cases e with
  | hwInput | constant =>
    cases recorded
    exact .refl a
  | arith type lhs rhs =>
    rw [genHWInputConstraint] at recorded
    cases split : Expression.splitConstant lhs rhs with
    | none =>
      rw [split] at recorded
      cases recorded
      exact .refl a
    | some pair =>
      rw [split] at recorded
      obtain ⟨const, other⟩ := pair
      cases type with
      | eq | ne =>
        cases other with
        | hwInput | constant =>
          cases recorded
          exact grows_insertValue a const
        | arith op left right =>
          cases op with
          | bitand => exact grows_insertBitTest recorded
          | and | or | not | lt | le | gt | ge | eq | ne | bitor | bitxor | add | mul | div | sub | lshift | rshift =>
            cases recorded
            exact .refl a
      | lt | le =>
        cases recorded
        exact grows_insertUpper a _ const
      | gt | ge =>
        cases recorded
        exact grows_insertLower a const
      | and | or | not | bitand | bitor | bitxor | add | mul | div | sub | lshift | rshift =>
        cases recorded
        exact .refl a

end

/-! ## What a test leaves behind -/

section

variable {n : FieldSize} (t : Test n)

/-- The record of a field holds what the test needs: the constant, or the mask for a test of bits against zero. -/
def Noted (input : Analysis.HWInput) : Prop :=
  match t.masking with
  | none => zExt t.const ∈ input.valueSet
  | some m => (if m.shift.undo (zExt t.const) = 0 then m.shift.undo (zExt m.mask)
      else m.shift.undo (zExt t.const)) ∈ input.bitsSet

variable {t} {input a b : Analysis.HWInput}

theorem Noted.mono (noted : Noted t a) (grows : Grows a b) : Noted t b := by
  unfold Noted at noted ⊢
  cases masking : t.masking with
  | none =>
    rw [masking] at noted
    exact grows.values _ noted
  | some m =>
    rw [masking] at noted
    exact grows.bits _ noted

theorem noted_of_recorded (recorded : genHWInputConstraint a t.expr = some b) : Noted t b := by
  unfold Noted
  cases masking : t.masking with
  | none =>
    have inserted : genHWInputConstraint a t.expr = some (a.insertValue (zExt t.const)) := by
      rw [t.expr_of_plain masking]
      cases t.negated with
      | false => rfl
      | true => rfl
    rw [inserted, Option.some.injEq] at recorded
    subst recorded
    exact OrderedSet.mem_insert.mpr (.inl rfl)
  | some m =>
    rw [t.expr_of_masked masking, BitTest.genHWInputConstraint_expr, Option.some.injEq] at recorded
    subst recorded
    exact OrderedSet.mem_insert.mpr (.inl rfl)

theorem Noted.not_empty (noted : Noted t input) : input.empty = false := by
  unfold Noted at noted
  unfold HWInput.empty
  cases masking : t.masking with
  | none =>
    rw [masking] at noted
    have some : input.valueSet.elements.isEmpty = false := List.isEmpty_eq_false_iff.mpr (List.ne_nil_of_mem noted)
    simp [some]
  | some m =>
    rw [masking] at noted
    have some : input.bitsSet.elements.isEmpty = false := List.isEmpty_eq_false_iff.mpr (List.ne_nil_of_mem noted)
    simp [some]

/-- The dictionary holds a value for the side of the constant, and for both sides of a test of bits. -/
theorem Noted.exists_mem_dict (noted : Noted t input) {side : Bool} (able : ∃ x, t.Takes side x)
    (made : t.masking ≠ none ∨ side ≠ t.negated) : ∃ v ∈ input.dict, t.Takes side (truncate n v) := by
  simp only [t.takes_iff] at able ⊢
  unfold Noted at noted
  unfold Test.operand at able ⊢
  cases masking : t.masking with
  | none =>
    rw [masking] at noted
    have equal := made.resolve_left (fun masked => masked masking)
    refine ⟨_, input.mem_dict.mpr (.inl noted), ?_⟩
    simp [equal]
  | some m =>
    simp only [masking] at noted able ⊢
    obtain ⟨here, zero⟩ := input.mem_dict_of_mem_bitsSet noted
    obtain ⟨equal, differs⟩ := (t.bitTest m).equal_reachesBoth zero here
    by_cases same : side = t.negated
    · obtain ⟨x, takes⟩ := able
      obtain ⟨v, member, other⟩ := differs ⟨x, fun equals => takes.mp equals same⟩
      exact ⟨v, member, ⟨fun equals => absurd equals other, fun no => absurd same no⟩⟩
    · obtain ⟨x, takes⟩ := able
      obtain ⟨v, member, equals⟩ := equal ⟨x, takes.mpr same⟩
      exact ⟨v, member, ⟨fun _ => same, fun _ => equals⟩⟩

end

section

variable {κ : Type} [DecidableEq κ] {n : FieldSize} {t : Test n} {model model' : Model κ} {key : κ}

/-- The model has a field at the key, with what the test needs. -/
def NotedAt (t : Test n) (key : κ) (model : Model κ) : Prop := ∃ input, model.lookup key = some input ∧ Noted t input

theorem notedAt_recordField {size : Int} {cstrs : List Expression} (member : t.expr ∈ cstrs)
    (recorded : recordField model key size cstrs = some model') : NotedAt t key model' := by
  rw [recordField, if_neg (List.ne_nil_of_mem member), Option.bind_eq_bind, Option.bind_eq_some_iff] at recorded
  obtain ⟨input, run, result⟩ := recorded
  cases result
  refine ⟨input, AList.lookup_insert _, ?_⟩
  exact (Run.of_foldlM run).established (fun _ _ => noted_of_recorded)
    (fun _ _ _ noted step => noted.mono (grows_genHWInputConstraint step)) member

theorem NotedAt.recordField (noted : NotedAt t key model) {other : κ} {size : Int} {cstrs : List Expression}
    (recorded : recordField model other size cstrs = some model') : NotedAt t key model' := by
  obtain ⟨input, found, noted⟩ := noted
  unfold Registers.recordField at recorded
  split_ifs at recorded with none
  · cases recorded
    exact ⟨input, found, noted⟩
  · rw [Option.bind_eq_bind, Option.bind_eq_some_iff] at recorded
    obtain ⟨last, run, result⟩ := recorded
    cases result
    by_cases same : key = other
    · subst same
      rw [found, Option.getD_some] at run
      refine ⟨last, AList.lookup_insert _, ?_⟩
      exact (Run.of_foldlM run).invariant
        (fun _ _ _ noted step => noted.mono (grows_genHWInputConstraint step)) noted
    · exact ⟨input, (AList.lookup_insert_ne same).trans found, noted⟩

variable {ν : Type} [Fintype ν] [DecidableEq ν] {f : SSA ν} {arrange : List ν → List ν}
  {order : List Expression → List Expression}

theorem notedAt_extractFieldConstraint (perm : ∀ l, (arrange l).Perm l) (reorder : ∀ l, (order l).Perm l) {v : ν}
    (isRead : f.inst v = .other) (tests : f.Tests v t) {size : Int}
    (extracted : extractFieldConstraint f arrange order model v key size = some model') : NotedAt t key model' := by
  obtain ⟨results, built, member⟩ := SSA.buildConstraints_of_tests perm isRead tests
  rw [extractFieldConstraint, built] at extracted
  exact notedAt_recordField ((reorder results).mem_iff.mpr member) extracted

theorem NotedAt.extractFieldConstraint (noted : NotedAt t key model) {v : ν} {other : κ} {size : Int}
    (extracted : extractFieldConstraint f arrange order model v other size = some model') : NotedAt t key model' := by
  rw [Registers.extractFieldConstraint, Option.bind_eq_bind, Option.bind_eq_some_iff] at extracted
  obtain ⟨results, -, recorded⟩ := extracted
  exact noted.recordField recorded

end

section

variable {n : FieldSize} {t : Test n} {ν : Type} [Fintype ν] [DecidableEq ν] {f : SSA ν} {arrange : List ν → List ν}
  {order : List Expression → List Expression} {mmioReads : List (ν × List (Int × Int))} {model : Model Int}

/-- Of every register that a call may read, the model has what the tests of the value need. -/
theorem notedAt_extractMMIOFieldConstraint (perm : ∀ l, (arrange l).Perm l) (reorder : ∀ l, (order l).Perm l)
    (extracted : extractMMIOFieldConstraint f arrange order mmioReads = some model) {ci : ν}
    {registers : List (Int × Int)} (read : (ci, registers) ∈ mmioReads) {offset size : Int}
    (register : (offset, size) ∈ registers) (isRead : f.inst ci = .other) (tests : f.Tests ci t) :
    NotedAt t offset model := by
  have keeps : ∀ (v : ν) (m : Model Int) (offSz : Int × Int) (m' : Model Int), NotedAt t offset m →
      (if offSz.1 = -1 then none else extractFieldConstraint f arrange order m v offSz.1 offSz.2) = some m' →
        NotedAt t offset m' := by
    intro v m offSz m' noted step
    split_ifs at step
    exact noted.extractFieldConstraint step
  refine (Run.of_foldlM extracted).established ?_ ?_ read
  · intro m m' run
    refine (Run.of_foldlM run).established ?_ (keeps ci) register
    intro m m' step
    split_ifs at step
    exact notedAt_extractFieldConstraint perm reorder isRead tests step
  · intro m p m' noted run
    exact (Run.of_foldlM run).invariant (keeps p.1) noted

end

/-! ## The fields of a run -/

/-- What the emitted code constructs for a field. -/
def constructed (input : Analysis.HWInput) : Stage2.HWInput := input.process.genModelInitCode.construct.toHWInput

/-- `mmio_mdl`: the fields for which something has been recorded. -/
def mmioMdl (model : Model Int) : AList fun _ : Int => Stage2.HWInput :=
  mapValues constructed ⟨model.entries.filter fun entry => !entry.2.empty, model.nodupKeys.sublist List.filter_sublist⟩

theorem lookup_mmioMdl {model : Model Int} {offset : Int} {input : Analysis.HWInput}
    (found : model.lookup offset = some input) (recorded : input.empty = false) :
    (mmioMdl model).lookup offset = some (constructed input) := by
  have kept : (⟨offset, input⟩ : (_ : Int) × Analysis.HWInput) ∈ model.entries.filter fun entry => !entry.2.empty :=
    List.mem_filter.mpr ⟨AList.mem_lookup_iff.mp found, by simp [recorded]⟩
  rw [mmioMdl, lookup_mapValues, Option.mem_def.mp (AList.mem_lookup_iff.mpr kept), Option.map_some]

/-- The probability of a field is the default. -/
theorem useModelProb_constructed (input : Analysis.HWInput) : (constructed input).useModelProb = 75 := by
  obtain ⟨-, same⟩ | ⟨-, -, same⟩ | ⟨-, -, same⟩ := input.process.genModelInitCode.members.generateBitCombs_cases
  · simp only [constructed, FieldLists.construct, RuntimeInput.genDict, same]
    rfl
  · simp only [constructed, FieldLists.construct, RuntimeInput.genDict, same]
    rfl
  · simp only [constructed, FieldLists.construct, RuntimeInput.genDict, same]
    rfl

section

variable {ε : Type} {input : Stage2.HWInput}

/-- `rand` returns the two values, and then what comes. -/
def before (first second : RandValue) (rest : Stream) : Stream
  | 0 => first
  | 1 => second
  | i + 2 => rest i

/-- Every value of the dictionary is drawn for some results of `rand`, whatever comes then. -/
theorem feedData_draws (probable : 0 < input.useModelProb) (small : input.dict.length ≤ 2147483648) {v : UInt64}
    (member : v ∈ input.dict) (original : UInt64) (rest : Stream) :
    ∃ s, (input.feedData .random original : Logged ε Stream UInt64).run s = ([], some (v, rest)) := by
  obtain ⟨i, inside, rfl⟩ := List.getElem_of_mem member
  have drawn : i < 2147483648 := Nat.lt_of_lt_of_le inside small
  have chosen : ((((0 : RandValue).val % 100 : Nat) : Int) + 1 ≤ input.useModelProb) := by
    have : (0 : RandValue).val % 100 = 0 := rfl
    omega
  refine ⟨before 0 ⟨i, drawn⟩ rest, ?_⟩
  simp only [HWInput.feedData, HWInput.yes_bind, before, chosen, decide_true, if_true]
  have index : i % input.dict.length = i := Nat.mod_eq_of_lt inside
  show (input.pick i : Logged ε Stream UInt64).run rest = _
  rw [HWInput.pick, dif_pos (Nat.zero_lt_of_lt inside)]
  simp only [index]
  rfl

theorem feedData_keeps (improbable : input.useModelProb < 100) (original : UInt64) (rest : Stream) :
    ∃ s, (input.feedData .random original : Logged ε Stream UInt64).run s = ([], some (original, rest)) := by
  have kept : ¬ ((((99 : RandValue).val % 100 : Nat) : Int) + 1 ≤ input.useModelProb) := by
    have : (99 : RandValue).val % 100 = 99 := rfl
    omega
  have plain : ¬ ((((99 : RandValue).val % 100 : Nat) : Int) + 1 ≤ 50) := by
    have : (99 : RandValue).val % 100 = 99 := rfl
    omega
  refine ⟨before 99 99 rest, ?_⟩
  simp only [HWInput.feedData, HWInput.yes_bind, before, kept, plain, decide_false, Bool.false_eq_true, if_false]
  rfl

end

/-! ## Decisions of the driver -/

/-- A read of a register that the driver tests, the side to which its branch is to go, and where in the file the
    fuzzer's own bytes for the read are. -/
structure Decision (ν : Type) where
  call : ν
  offset : Int
  size : FieldSize
  test : Test size
  side : Bool
  file : FuzzFile
  start : Nat
  dest : Memory

/-- The value that the driver gets. -/
def fieldValue (n : FieldSize) (bytes : Memory) (start : Nat) : BitVec n.bits := BitVec.ofNat n.bits (loadLE bytes start n.bytes)

/-- The call may read the register, and some value of the register decides as wanted: for a test of bits any such value
    will do, and for one of the whole value the constant or the fuzzer's own bytes. -/
structure Decision.Possible {ν : Type} (f : SSA ν) (mmioReads : List (ν × List (Int × Int))) (d : Decision ν) : Prop where
  read : ∃ registers size, (d.call, registers) ∈ mmioReads ∧ (d.offset, size) ∈ registers
  isRead : f.inst d.call = .other
  tests : f.Tests d.call d.test
  able : ∃ x, d.test.Takes d.side x
  made : d.test.masking ≠ none ∨ d.side ≠ d.test.negated ∨ d.test.Takes d.side (fieldValue d.size d.file.data d.start)

/-- The reads one after the other. -/
def feedAll {ν : Type} (device : Stage2Device) : List (Decision ν) → Logged Access Stream (List Memory)
  | [] => pure []
  | d :: rest => do
    let dest ← device.feedFuzzMMIOData d.file d.start d.offset d.dest d.size.bytes
    let others ← feedAll device rest
    pure (dest :: others)

theorem two_pow_bits_eq (n : FieldSize) : 2 ^ n.bits = 256 ^ n.bytes := Nat.pow_mul 2 8 n.bytes

theorem fieldValue_storeLE (n : FieldSize) (dest : Memory) (v : UInt64) :
    fieldValue n (storeLE dest 0 n.bytes v.toNat) 0 = truncate n v := by
  apply BitVec.eq_of_toNat_eq
  rw [fieldValue, loadLE_storeLE, BitVec.toNat_ofNat, truncate, BitVec.toNat_setWidth, two_pow_bits_eq, Nat.mod_mod]
  rfl

theorem truncate_loadLE (n : FieldSize) (bytes : Memory) (start : Nat) :
    truncate n (UInt64.ofNat (loadLE bytes start n.bytes)) = fieldValue n bytes start := by
  have small : loadLE bytes start n.bytes < UInt64.size := by
    refine Nat.lt_of_lt_of_le (loadLE_lt bytes start n.bytes) ?_
    rw [← two_pow_bits_eq]
    exact Nat.pow_le_pow_right (by decide) n.bits_le
  apply BitVec.eq_of_toNat_eq
  rw [truncate, BitVec.toNat_setWidth, UInt64.toNat_toBitVec, UInt64.toNat_ofNat_of_lt' small]
  rfl

section

variable {ν : Type} [Fintype ν] [DecidableEq ν] {f : SSA ν} {arrange : List ν → List ν}
  {order : List Expression → List Expression} {mmioReads : List (ν × List (Int × Int))} {model : Model Int}
  {device : Stage2Device}

/-- Whatever `rand` returns for the reads that come then, it can make the value that decides as wanted. -/
theorem fed_of_possible (perm : ∀ l, (arrange l).Perm l) (reorder : ∀ l, (order l).Perm l)
    (extracted : extractMMIOFieldConstraint f arrange order mmioReads = some model)
    (installed : device.mmioInputs = mmioMdl model) (random : device.mode = .random)
    (small : ∀ entry ∈ device.mmioInputs.entries, entry.2.dict.length ≤ 2147483648) {d : Decision ν}
    (possible : d.Possible f mmioReads) (rest : Stream) :
    ∃ s dest, (device.feedFuzzMMIOData d.file d.start d.offset d.dest d.size.bytes).result s = some (dest, rest) ∧
      d.test.Takes d.side (fieldValue d.size dest 0) := by
  obtain ⟨registers, size, read, register⟩ := possible.read
  obtain ⟨input, found, noted⟩ := notedAt_extractMMIOFieldConstraint perm reorder extracted read register
    possible.isRead possible.tests
  have fields := lookup_mmioMdl found noted.not_empty
  rw [← installed] at fields
  -- the value of the field, and results of `rand` for which `feedData` returns it
  have drawn : ∃ v, d.test.Takes d.side (truncate d.size v) ∧
      ∃ s, ((constructed input).feedData .random (UInt64.ofNat (loadLE d.file.data d.start d.size.bytes)) :
        Logged Access Stream UInt64).run s = ([], some (v, rest)) := by
    by_cases own : d.test.Takes d.side (fieldValue d.size d.file.data d.start)
    · refine ⟨_, ?_, feedData_keeps (by simp [useModelProb_constructed]) _ rest⟩
      rw [truncate_loadLE]
      exact own
    · have made : d.test.masking ≠ none ∨ d.side ≠ d.test.negated := by
        cases possible.made with
        | inl masked => exact .inl masked
        | inr other => exact .inr (other.resolve_right own)
      obtain ⟨v, member, takes⟩ := noted.exists_mem_dict possible.able made
      exact ⟨v, takes, feedData_draws (by simp [useModelProb_constructed]) (small _ (AList.mem_lookup_iff.mp fields)) member _ rest⟩
  obtain ⟨v, takes, s, run⟩ := drawn
  refine ⟨s, storeLE d.dest 0 d.size.bytes v.toNat, ?_, ?_⟩
  · have read : (d.file.load d.start d.size.bytes).result s =
        some (UInt64.ofNat (loadLE d.file.data d.start d.size.bytes), s) := rfl
    simp only [Stage2Device.feedFuzzMMIOData, fields, random]
    rw [result_bind_of_some read, result_bind_of_some (congrArg Prod.snd run)]
    rfl
  · rw [fieldValue_storeLE]
    exact takes

end

/-- The values of a driver that reads its status register twice: it branches on a bit of the status, and on the kind
    of the device that is in the same register. -/
inductive StatusValue where
  | status
  | masked
  | ready
  | wait
  | kind
  | dispatch
  deriving DecidableEq

instance : Fintype StatusValue := ⟨{.status, .masked, .ready, .wait, .kind, .dispatch}, fun v => by cases v <;> simp⟩

def statusDriver : SSA StatusValue where
  inst
    | .status | .kind => .other
    | .masked => .binary .and .value (.constantInt 4)
    | .ready => .icmp .eq .value (.constantInt 0)
    | .wait => .branch
    | .dispatch => .switch [1, 7]
  users
    | .status => [.masked]
    | .masked => [.ready]
    | .ready => [.wait]
    | .kind => [.dispatch]
    | .wait | .dispatch => []
  operands
    | .masked => [.status]
    | .ready => [.masked]
    | .wait => [.ready]
    | .dispatch => [.kind]
    | .status | .kind => []
  users_iff v u := by cases v <;> cases u <;> simp
  rank
    | .status => 3
    | .masked => 2
    | .ready | .kind => 1
    | .wait | .dispatch => 0
  rank_lt v u use _ _ := by cases v <;> simp at use <;> subst use <;> decide

def statusReads : List (StatusValue × List (Int × Int)) := [(.status, [(8, 4)]), (.kind, [(8, 4), (12, 4)])]

/-- Bit 2 of the status is clear. -/
def isClear : Test .four := ⟨some ⟨.none, 4, .right⟩, 0, false, .right⟩

/-- The device is of kind 7. -/
def isSeven : Test .four := ⟨none, 7, false, .right⟩

theorem zeroFile_size_lt : (1024 : UInt64).toNat < 9223372036854775808 := by decide

def zeroFile : FuzzFile := ⟨fun _ => 0, 1024, zeroFile_size_lt⟩

def statusDecisions : List (Decision StatusValue) :=
  [⟨.status, 8, .four, isClear, true, zeroFile, 8, fun _ => 0⟩, ⟨.status, 8, .four, isClear, false, zeroFile, 8, fun _ => 0⟩,
    ⟨.kind, 12, .four, isSeven, true, zeroFile, 12, fun _ => 0⟩]

theorem statusExtracted : (extractMMIOFieldConstraint statusDriver id id statusReads).isSome = true := by decide +kernel

def statusDevice : Stage2Device where
  dmaInputs := ∅
  dmasg := []
  mode := .random
  mmioInputs := mmioMdl ((extractMMIOFieldConstraint statusDriver id id statusReads).get statusExtracted)
  usbInputs := ∅
  dmaRegs := ∅
  dmaStarts := ∅
  level1DmaSet := false

theorem statusDriver_tests : statusDriver.Tests .status isClear ∧ statusDriver.Tests .kind isSeven := by
  constructor
  · refine .branch .wait .ready [.masked] rfl rfl rfl ⟨⟨_, _, _, rfl, rfl⟩, rfl, trivial⟩ ?_
    decide
  · exact .switch .dispatch [] [1, 7] rfl rfl trivial rfl rfl (by decide)

theorem statusDecisions_possible : ∀ d ∈ statusDecisions, d.Possible statusDriver statusReads := by
  obtain ⟨clear, seven⟩ := statusDriver_tests
  have first : ∃ registers size, (StatusValue.status, registers) ∈ statusReads ∧ ((8 : Int), size) ∈ registers :=
    ⟨_, _, List.mem_cons_self, List.mem_cons_self⟩
  have second : ∃ registers size, (StatusValue.kind, registers) ∈ statusReads ∧ ((12 : Int), size) ∈ registers :=
    ⟨_, _, List.mem_cons_of_mem _ List.mem_cons_self, List.mem_cons_of_mem _ List.mem_cons_self⟩
  have taken : isClear.Takes true 0 ∧ isClear.Takes false 4 ∧ isSeven.Takes true 7 := by
    simp only [Test.takes_iff]
    decide
  have masked : isClear.masking ≠ none := Option.some_ne_none _
  have positive : true ≠ isSeven.negated := (nofun : true ≠ false)
  simp only [statusDecisions, List.forall_mem_cons]
  refine ⟨?_, ?_, ?_, fun _ none => absurd none List.not_mem_nil⟩
  · exact ⟨first, rfl, clear, ⟨0, taken.1⟩, .inl masked⟩
  · exact ⟨first, rfl, clear, ⟨4, taken.2.1⟩, .inl masked⟩
  · exact ⟨second, rfl, seven, ⟨7, taken.2.2⟩, .inr (.inl positive)⟩

end DevFuzz.Analysis.Registers
