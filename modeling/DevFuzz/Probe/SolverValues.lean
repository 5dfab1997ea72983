import DevFuzz.Probe.Codegen

/-! # What `codegen` stores for a solved read

`PeX::generateTestCase` prints the solved bytes in index order, least
significant first, and the loop of `codegen` shifts each of them in from below:
the number it stores is the byte string read from its other end
(`codegen_generateTestCase`).  The two readings agree on palindromes only.
-/

namespace DevFuzz.Probe

open DevFuzz.Lib.Bytes DevFuzz.Lib.Strings

/-- A symbolic MMIO read with the bytes the solver found for it. -/
structure SolvedRead extends MmioRead where
  bytes : List UInt8
  size_mem : size ∈ [1, 2, 4, 8]
  length_bytes : bytes.length = size

/-! ## Lines -/

/-- Stripping a debug line removes its newline and nothing else. -/
theorem strip_debugLine {text : Text} (nonempty : text ≠ [])
    (solid : ∀ char ∈ text.getLast?, isSpace char = false) :
    strip (debugLine text) = "PeX: ".toList ++ text := by
  obtain ⟨front, last, rfl⟩ := List.eq_nil_or_concat text |>.resolve_left nonempty
  have lastSolid : isSpace last = false := solid last (by simp)
  have newline : ∀ char ∈ ['\n'], isSpace char = true := by
    intro char member
    rw [List.mem_singleton.mp member]
    decide
  -- the text starts with a `P` and ends in a solid character, so the newline alone is removed
  have stripped : strip ('P' :: (['e', 'X', ':', ' '] ++ front) ++ [last] ++ ['\n']) = _ :=
    strip_eq (by decide) lastSolid newline
  simp only [List.cons_append, List.append_assoc] at stripped
  simp only [debugLine, List.concat_eq_append, List.cons_append, List.append_assoc]
  exact stripped

theorem strip_debugLine_hexval (value : Nat) :
    strip (debugLine (hexval value)) = "PeX: ".toList ++ hexval value := by
  apply strip_debugLine (by simp [hexval])
  intro char member
  exact hexval_solid value char (List.mem_of_getLast? member)

theorem strip_debugLine_name (read : MmioRead) :
    strip (debugLine read.name) = "PeX: ".toList ++ read.name := by
  rw [MmioRead.name_eq]
  apply strip_debugLine (by simp [MmioRead.nameHead])
  intro char member
  rw [MmioRead.nameTail, ← List.append_assoc,
    List.getLast?_append_of_ne_nil _ (decimal_ne_nil _)] at member
  exact decimal_solid _ char (List.mem_of_getLast? member)

/-! ## The name line -/

/-- A non-empty word after a single underscore does not end the field before `___`. -/
theorem splitFrom_word {word rest field : Text} (nonempty : word ≠ []) (absent : '_' ∉ word) :
    splitFrom ['_', '_', '_'] 0 field ('_' :: (word ++ rest)) =
      splitFrom ['_', '_', '_'] 0 (word.reverse ++ '_' :: field) rest := by
  cases word with
  | nil => exact absurd rfl nonempty
  | cons char word =>
    have different : ('_' == char) = false := by
      simp only [List.mem_cons, not_or] at absent
      simpa using absent.1
    rw [splitFrom_lone (by simp [List.isPrefixOf, different])]
    exact splitFrom_of_notMem (char :: word) rest ('_' :: field) absent

theorem split_name (read : MmioRead) :
    split "___".toList ("PeX: ".toList ++ read.name) =
      ("PeX: ".toList ++ read.nameHead) :: split "___".toList read.nameTail := by
  have varId : '_' ∉ "PeX: v".toList ++ decimal read.nextSymbVarId := by
    simp [decimal]
  have separator : "___".toList = ['_', '_', '_'] := rfl
  -- every underscore before `mmio` stands alone between two words
  have shape : "PeX: ".toList ++ read.name =
      ("PeX: v".toList ++ decimal read.nextSymbVarId) ++ ('_' :: ("pex".toList ++ ('_' :: ("symdev".toList ++
        ('_' :: ("bar".toList ++ ('_' :: (decimal read.bar ++ ('_' :: ("mmio".toList ++
          (['_', '_', '_'] ++ read.nameTail))))))))))) := by
    rw [MmioRead.name_eq]
    simp [MmioRead.nameHead]
  rw [separator, shape, split, splitFrom_of_notMem _ _ _ varId, splitFrom_word (by decide) (by decide),
    splitFrom_word (by decide) (by decide), splitFrom_word (by decide) (by decide),
    splitFrom_word (decimal_ne_nil _) (decimal_no_underscore _), splitFrom_word (by decide) (by decide), splitFrom_separator]
  simp [MmioRead.nameHead]

/-- The text after `___` has no second `___`, and its first and third fields are the address
    and the size. -/
theorem split_nameTail (read : MmioRead) :
    split "_".toList read.nameTail = hexval read.baraddr :: "size".toList :: decimal read.size ::
      split "_".toList ("pc_".toList ++ hexval read.pc ++ ['_'] ++ decimal read.lastSymbolicId) := by
  have shape : read.nameTail = hexval read.baraddr ++ ['_'] ++ ("size".toList ++ ['_'] ++
      (decimal read.size ++ ['_'] ++
        ("pc_".toList ++ hexval read.pc ++ ['_'] ++ decimal read.lastSymbolicId))) := by
    simp [MmioRead.nameTail]
  have separator : "_".toList = ['_'] := rfl
  rw [separator, shape, split_of_notMem _ _ (hexval_no_underscore _),
    split_of_notMem _ _ (by decide), split_of_notMem _ _ (decimal_no_underscore _)]

theorem split_nameTail_once (read : MmioRead) : split "___".toList read.nameTail = [read.nameTail] := by
  have shape : read.nameTail = hexval read.baraddr ++ ('_' :: ("size".toList ++ ('_' :: (decimal read.size ++
      ('_' :: ("pc".toList ++ ('_' :: (hexval read.pc ++ ('_' :: (decimal read.lastSymbolicId ++ [])))))))))) := by
    simp [MmioRead.nameTail]
  have separator : "___".toList = ['_', '_', '_'] := rfl
  conv_lhs => rw [separator, shape, split, splitFrom_of_notMem _ _ _ (hexval_no_underscore _),
    splitFrom_word (by decide) (by decide), splitFrom_word (decimal_ne_nil _) (decimal_no_underscore _),
    splitFrom_word (by decide) (by decide), splitFrom_word (hexval_ne_nil _) (hexval_no_underscore _),
    splitFrom_word (decimal_ne_nil _) (decimal_no_underscore _)]
  rw [shape]
  simp [splitFrom]

theorem codegenLine_name (s : Parse) (read : MmioRead) :
    codegenLine s (debugLine read.name) =
      .ok { s with addr := hexval read.baraddr, size := read.size } := by
  have shape : "PeX: ".toList ++ read.name =
      ("PeX: v".toList ++ decimal read.nextSymbVarId ++ "_pex_symdev_bar_".toList ++ decimal read.bar ++ ['_']) ++
        "mmio".toList ++ ("___".toList ++ read.nameTail) := by
    rw [MmioRead.name_eq, MmioRead.nameHead]
    generalize decimal read.nextSymbVarId = varId
    generalize decimal read.bar = bar
    generalize read.nameTail = tail
    simp
  have found : search "mmio".toList ("PeX: ".toList ++ read.name) = true := by
    rw [shape]
    exact search_append _ _ _
  rw [codegenLine, strip_debugLine_name]
  simp only [found, if_true]
  rw [codegenName, split_name, split_nameTail_once]
  simp only [split_nameTail, pyInt_decimal]

/-! ## The byte lines -/

theorem split_byteLine {word : Text} (blankFree : ' ' ∉ word) :
    split " ".toList ("PeX: ".toList ++ word) = ["PeX:".toList, word] := by
  have first : split [' '] ("PeX:".toList ++ [' '] ++ word) = "PeX:".toList :: split [' '] word :=
    split_of_notMem "PeX:".toList word (by decide)
  have second : splitFrom [' '] 0 [] (word ++ []) = splitFrom [' '] 0 (word.reverse ++ []) [] :=
    splitFrom_of_notMem word [] [] blankFree
  have last : split [' '] word = [word] := by
    simpa [split, splitFrom] using second
  rw [last] at first
  simpa using first

theorem digitChar_ne_m {digit : Nat} (bound : digit < 16) : Nat.digitChar digit ≠ 'm' := by
  interval_cases digit <;> decide

theorem hexval_no_m (value : Nat) : 'm' ∉ hexval value := fun member =>
  forall_hexval (P := (· ≠ 'm')) (by decide) (fun _ bound => digitChar_ne_m bound) 'm' member rfl

theorem decimal_no_m (value : Nat) : 'm' ∉ decimal value := fun member =>
  forall_toDigits (P := (· ≠ 'm')) (by decide) (by decide) (fun _ bound => digitChar_ne_m bound) 'm' member rfl

theorem codegenLine_byte (s : Parse) (open_ : s.size ≠ 0) (byte : UInt8) :
    codegenLine s (debugLine (hexval byte.toNat)) =
      .ok (if ((s.data.length : Int) + 1) = s.size then
        { s with
          size := 0, data := [],
          regModel := s.regModel.record s.addr (s.size, adata (s.data ++ [(byte.toNat : Int)])) }
      else { s with data := s.data ++ [(byte.toNat : Int)] }) := by
  -- a byte line cannot be taken for a name line
  have absent : 'm' ∉ "PeX: ".toList ++ hexval byte.toNat := by
    rw [List.mem_append, not_or]
    exact ⟨by decide, hexval_no_m byte.toNat⟩
  have notFound : search "mmio".toList ("PeX: ".toList ++ hexval byte.toNat) = false :=
    search_eq_false absent
  have blankFree : ' ' ∉ hexval byte.toNat := by
    intro member
    exact absurd (hexval_solid _ _ member) (by decide)
  have words := split_byteLine blankFree
  rw [codegenLine, strip_debugLine_hexval]
  simp only [notFound, Bool.false_eq_true, if_false, open_, ne_eq, not_false_eq_true, if_true]
  rw [codegenByte, words]
  simp only [pyInt_hexval, List.length_append, List.length_singleton, Nat.cast_add, Nat.cast_one]
  split <;> rfl

/-- The byte lines of a record, read from the middle of it: the last one closes the record. -/
theorem codegen_bytes (s : Parse) (bytes : List UInt8) (nonempty : bytes ≠ [])
    (length : (s.data.length : Int) + bytes.length = s.size) :
    (bytes.map fun byte => debugLine (hexval byte.toNat)).foldlM codegenLine s =
      .ok { s with
        size := 0, data := [],
        regModel := s.regModel.record s.addr
          (s.size, adata (s.data ++ bytes.map fun byte => (byte.toNat : Int))) } := by
  induction bytes generalizing s with
  | nil => exact absurd rfl nonempty
  | cons byte bytes ih =>
    simp only [List.length_cons, Nat.cast_add, Nat.cast_one] at length
    have open_ : s.size ≠ 0 := by omega
    simp only [List.map_cons, List.foldlM_cons, codegenLine_byte s open_ byte]
    by_cases last : bytes = []
    · -- `len(data) == size`: the record is stored
      subst last
      have closes : ((s.data.length : Int) + 1) = s.size := by simpa using length
      simp [closes, Except.bind, bind, pure, Except.pure]
    · have more : ¬ ((s.data.length : Int) + 1) = s.size := by
        have := List.length_pos_iff.mpr last
        omega
      have rest := ih { s with data := s.data ++ [(byte.toNat : Int)] } last (by simp; omega)
      simp only [List.append_assoc, List.singleton_append] at rest
      simp only [more, if_false, bind, Except.bind]
      exact rest

theorem adata_bytes (bytes : List UInt8) :
    adata (bytes.map fun byte => (byte.toNat : Int)) = (beValue bytes : Int) := by
  -- `value` is what the loop has shifted in so far
  have loop : ∀ (rest : List UInt8) (value : Nat),
      (rest.map fun byte => (byte.toNat : Int)).foldl (fun adata d => adata * 2 ^ 8 + d) (value : Int) =
        ((rest.foldl (fun value byte => value * 256 + byte.toNat) value : Nat) : Int) := by
    intro rest
    induction rest with
    | nil => intro value; rfl
    | cons byte rest ih =>
      intro value
      have step := ih (value * 256 + byte.toNat)
      push_cast at step
      simpa using step
  exact loop bytes 0

/-- One solved object of the log, read between two records: `codegen` stores its bytes as a
    number with the *first* byte on top. -/
theorem codegen_generateTestCase (addr : Text) (model : RegModel Text) (read : SolvedRead) :
    (generateTestCase read.toMmioRead read.bytes).foldlM codegenLine (Parse.between addr model) =
      .ok (Parse.between (hexval read.baraddr)
        (model.record (hexval read.baraddr) (read.size, beValue read.bytes))) := by
  have nonempty : read.bytes ≠ [] := by
    intro empty
    have size := read.size_mem
    rw [← read.length_bytes, empty] at size
    exact absurd size (by decide)
  have opened := codegen_bytes
    { Parse.between addr model with addr := hexval read.baraddr, size := read.size }
    read.bytes nonempty (by simp [Parse.between, read.length_bytes])
  simp only [generateTestCase, List.foldlM_cons, codegenLine_name, bind, Except.bind]
  rw [opened]
  simp [Parse.between, adata_bytes]

/-- The number stored for a solved read is the value the solver gave it exactly when its bytes
    read the same from both ends. -/
theorem codegen_stores_solver_value_iff (addr : Text) (model : RegModel Text) (read : SolvedRead) :
    (generateTestCase read.toMmioRead read.bytes).foldlM codegenLine (Parse.between addr model) =
        .ok (Parse.between (hexval read.baraddr)
          (model.record (hexval read.baraddr) (read.size, leValue read.bytes))) ↔
      read.bytes.reverse = read.bytes := by
  rw [codegen_generateTestCase, ← beValue_eq_leValue_iff]
  constructor
  · intro equal
    have models : model.record (hexval read.baraddr) (read.size, beValue read.bytes) =
        model.record (hexval read.baraddr) (read.size, leValue read.bytes) :=
      congrArg Parse.regModel (Except.ok.inj equal)
    have entries := RegModel.record_inj models
    simpa using entries
  · intro equal
    rw [equal]

/-- A two-byte register whose solved value is 1. -/
def lowByteSet : SolvedRead where
  bar := 0
  baraddr := 0x10
  size := 2
  pc := 0
  nextSymbVarId := 0
  lastSymbolicId := 0
  bytes := [1, 0]
  size_mem := by decide
  length_bytes := rfl

/-- The value 1 is stored as 256. -/
theorem codegen_stores_swapped_value :
    (generateTestCase lowByteSet.toMmioRead lowByteSet.bytes).foldlM codegenLine (Parse.between [] []) =
        .ok (Parse.between (hexval 0x10) [(hexval 0x10, [(2, 256)])]) ∧
      leValue lowByteSet.bytes = 1 ∧
      ¬ (generateTestCase lowByteSet.toMmioRead lowByteSet.bytes).foldlM codegenLine (Parse.between [] []) =
        .ok (Parse.between (hexval 0x10) [(hexval 0x10, [(2, (leValue lowByteSet.bytes : Int))])]) := by
  have stored := codegen_generateTestCase [] [] lowByteSet
  have big : beValue lowByteSet.bytes = 256 := by decide
  have little : leValue lowByteSet.bytes = 1 := by simp [lowByteSet]
  rw [big] at stored
  refine ⟨stored, little, ?_⟩
  rw [little]
  intro claimed
  have models := congrArg Parse.regModel (Except.ok.inj (stored.symm.trans claimed))
  have entries := @RegModel.record_inj _ _ _ _ _ [] models
  exact absurd entries (by decide)

end DevFuzz.Probe
