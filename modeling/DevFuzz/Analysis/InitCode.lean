import DevFuzz.Analysis.Constraints
import DevFuzz.Analysis.Emitted
import DevFuzz.Analysis.SecondaryInit
import DevFuzz.Lib.Readers
import DevFuzz.Profile.Analyze

/-! # The text of a model

`genStage2ModelInitCode` and `genSecondaryDMAInitCode` of `stage2/src/apstage2.cpp` print a model as statements of C++,
and `genModelInitCode` of `stage2/src/hw_input_model.h` prints one field of it.
-/

namespace DevFuzz.Analysis.InitCode

open DevFuzz.Lib DevFuzz.Lib.Strings DevFuzz.Lib.Tokens DevFuzz.Lib.Readers DevFuzz.Profile SecondaryDMA

/-! ## What is printed -/

/-- An `HWInput` of the analyser with its members `offset` and `n_bytes`. -/
structure Field where
  offset : Int
  nBytes : Int
  input : HWInput

def hexList (values : List UInt64) : Text :=
  ["\x7b".toList, values.flatMap fun v => [hexval v.toNat, ", ".toList].flatten, "\x7d".toList].flatten

/-- The text of `genModelInitCode`, after `process`. -/
def Field.genModelInitCode (field : Field) (baseIndent : Nat) : Text :=
  let lists := field.input.process.genModelInitCode
  let base := List.replicate baseIndent ' '
  let indent := List.replicate (8 + baseIndent) ' '
  [base, "HWInput(".toList, signedDecimal field.offset, ", ".toList, signedDecimal field.nBytes,
    ",\n".toList, indent, hexList lists.bits,
    ",\n".toList, indent, hexList lists.magics,
    ",\n".toList, indent, hexList lists.rangeSpecials, ")\n".toList].flatten

/-- A map from offsets to fields, in the order of the `unordered_map`. -/
abbrev Fields := List (Int × Field)

def kept (fields : Fields) : Fields := fields.filter fun p => !p.2.input.empty

/-- An entry of a map, where the field is indented by so many blanks. -/
def entry (baseIndent : Nat) (p : Int × Field) : Text :=
  ["\x7b".toList, signedDecimal p.1, " , ".toList, p.2.genModelInitCode baseIndent, "\x7d,\n".toList].flatten

/-- The entries of `mmio_mdl` and `usb_mdl`, indented by the length of what is before the field. -/
def entries (fields : Fields) : Text :=
  (kept fields).flatMap fun p => entry ["\x7b".toList, signedDecimal p.1, " , ".toList].flatten.length p

/-- A structure of `dmaModel` with the length of its buffer and its size. -/
structure DmaStruct where
  buflen : Int
  structLen : Int
  fields : Fields

def DmaStruct.text (s : DmaStruct) : Text :=
  ["DMAInputModel(".toList, signedDecimal s.buflen, ",".toList, signedDecimal s.structLen, ", \x7b\n".toList,
    (kept s.fields).flatMap (entry 0), "\x7d".toList, "),\n".toList].flatten

/-- `mmioModel`, `dmaModel` and `usbModel`. -/
structure Models where
  mmio : Fields
  dma : List DmaStruct
  usb : Fields

def usbText (usb : Fields) : Text :=
  if usb.isEmpty then []
  else
    ["\n// USB Buffer Protocol Model\n".toList,
      "// Maps buffer offset -> expected values (magic bytes, protocol constants)\n".toList,
      "unordered_map<int, HWInput> usb_mdl =\n\x7b\n".toList, entries usb, "\x7d".toList, ";\n".toList,
      "model->setUSBModel(usb_mdl);\n".toList].flatten

/-- `code` of `genStage2ModelInitCode` -/
def genStage2ModelInitCode (modelName : Text) (models : Models) : Text :=
  ["unordered_map<int, HWInput> mmio_mdl =\n\x7b\n".toList, entries models.mmio, "\x7d".toList, ";\n\n".toList,
    "vector<DMAInputModel> dma_mdl = \x7b\n".toList, models.dma.flatMap DmaStruct.text, "\x7d".toList, ";\n".toList,
    "auto * model = new Stage2HWModel(\"".toList, modelName, "\", mmio_mdl, dma_mdl);\n".toList].flatten ++
    usbText models.usb

def warn (message : Text) : Text := "\x1b[33mWARN:".toList ++ message ++ "\x1b[0m\n".toList

/-- What has been printed when `code` is printed: a warning for each field that is left out, but none for USB. -/
def warnings (models : Models) : Text :=
  (models.mmio.filter fun p => p.2.input.empty).flatMap (fun _ => warn "Empty MMIO Model\n".toList) ++
    models.dma.flatMap fun s =>
      (s.fields.filter fun p => p.2.input.empty).flatMap fun _ => warn "Empty DMA Model\n".toList

/-- The arguments behind the first. -/
def otherArgs (call : SetSecondaryDMAInfo) : List Int := [call.dmaBufSz, call.offset] ++ call.l2DmaBufSz.toList

/-- The text of `genSecondaryDMAInitCode`. -/
def secondaryText (call : SetSecondaryDMAInfo) : Text :=
  ["model->".toList, "setSecondaryDMAInfo".toList, "(".toList, signedDecimal call.dmaStructSz,
    (otherArgs call).flatMap (fun arg => ", ".toList ++ signedDecimal arg), ")".toList, ";\n".toList].flatten

/-- What `APStage2Pass` prints between its two marks. -/
def passSection (models : Models) (secondary : List SetSecondaryDMAInfo) : Text :=
  warnings models ++ genStage2ModelInitCode "XXX".toList models ++ secondary.flatMap secondaryText ++ "\n".toList

/-! ## What is read -/

/-- The arguments of the constructor of `HWInput`. -/
structure FieldArgs where
  offset : Int
  nBytes : Int
  bits : List UInt64
  magics : List UInt64
  rangeSpecials : List UInt64
  deriving DecidableEq

structure DmaArgs where
  length : Int
  structSz : Int
  mdl : List (Int × FieldArgs)
  deriving DecidableEq

/-- A statement behind the construction of the model: `usb_mdl` is defined and set, or a member function is called. -/
inductive Statement where
  | setUSBModel (usb : List (Int × FieldArgs))
  | call (name : Text) (args : List Int)
  deriving DecidableEq

/-- The body of a function `new_stage2_model_..`. -/
structure Body where
  mmio : List (Int × FieldArgs)
  dma : List DmaArgs
  devName : Text
  statements : List Statement
  deriving DecidableEq

def readHexList : Reader (List UInt64) := do
  expect "\x7b".toList
  let values ← many "\x7d".toList do
    let value ← unsigned
    expect ",".toList
    return UInt64.ofNat value
  return values

def readField : Reader FieldArgs := do
  expect "HWInput(".toList
  let offset ← integer
  expect ",".toList
  let nBytes ← integer
  expect ",".toList
  let bits ← readHexList
  expect ",".toList
  let magics ← readHexList
  expect ",".toList
  let rangeSpecials ← readHexList
  expect ")".toList
  return ⟨offset, nBytes, bits, magics, rangeSpecials⟩

def readEntry : Reader (Int × FieldArgs) := do
  expect "\x7b".toList
  let offset ← integer
  expect ",".toList
  let field ← readField
  expect "\x7d,".toList
  return (offset, field)

/-- The entries of a map, with the brace behind them. -/
def readEntries : Reader (List (Int × FieldArgs)) := many "\x7d".toList readEntry

def readDma : Reader DmaArgs := do
  expect "DMAInputModel(".toList
  let length ← integer
  expect ",".toList
  let structSz ← integer
  expect ", \x7b".toList
  let mdl ← readEntries
  expect "),".toList
  return ⟨length, structSz, mdl⟩

def readUsb : Reader Statement := do
  expect "unordered_map<int, HWInput> usb_mdl = \x7b".toList
  let usb ← readEntries
  expect ";".toList
  expect "model->setUSBModel(usb_mdl);".toList
  return .setUSBModel usb

def readCall : Reader Statement := do
  expect "model->".toList
  let name ← nextToken
  expect "(".toList
  let first ← integer
  let others ← many ")".toList argument
  expect ";".toList
  return .call name (first :: others)

def readStatement : Reader Statement := fun toks =>
  if toks.head? = some "unordered_map".toList then readUsb toks else readCall toks

def readBody : Reader Body := do
  expect "unordered_map<int, HWInput> mmio_mdl = \x7b".toList
  let mmio ← readEntries
  expect ";".toList
  expect "vector<DMAInputModel> dma_mdl = \x7b".toList
  let dma ← many "\x7d".toList readDma
  expect ";".toList
  expect "auto * model = new Stage2HWModel(\"".toList
  let devName ← nextToken
  expect "\", mmio_mdl, dma_mdl);".toList
  let statements ← many "return".toList readStatement
  expect "model;".toList
  return ⟨mmio, dma, devName, statements⟩

/-- The head of a definition without parameters. -/
def readHead : Reader Text := do
  expect "Stage2HWModel *".toList
  let name ← nextToken
  expect "() \x7b".toList
  return name

/-- The name of the function, and its body. -/
def readFunction : Reader (Text × Body) := do
  let name ← readHead
  let body ← readBody
  expect "\x7d".toList
  return (name, body)

/-! ## Reading what is printed -/

/-- Not in the emitted code, and so a mark of what is around it. -/
def plain (char : Char) : Bool := !(char == 'N' || char == 'C' || char == '!' || char == 'G' || char == '\\')

theorem plain_digitChar : ∀ digit < 16, plain (Nat.digitChar digit) = true := by
  intro digit bound
  interval_cases digit <;> rfl

theorem numeral_plain_hexval : Numeral plain hexval := numeral_hexval plain_digitChar rfl

theorem signedDecimal_eq : signedDecimal = signed decimal := by
  funext value
  cases value <;> rfl

section

variable {β : Type} {f : Int → Reader β} {text : Text} {b : β}

/-- A number of a statement. -/
theorem prints_signedDecimal {value : Int} (prints : Prints plain (f value) text b) (after : opens text = true) :
    Prints plain (integer >>= f) (signedDecimal value ++ text) b := by
  rw [signedDecimal_eq]
  exact prints.signed (numeral_decimal plain_digitChar) rfl after

end

theorem prints_hexList (values : List UInt64) : Prints plain readHexList (hexList values) values := by
  have each : ∀ v ∈ values, ∃ tok, tok ≠ "\x7d".toList ∧ PrintsFrom plain tok
      (unsigned >>= fun value => expect ",".toList >>= fun _ => pure (UInt64.ofNat value))
      [hexval v.toNat, ", ".toList].flatten (id v) := by
    intro v _
    refine ⟨_, numeral_plain_hexval.ne rfl v.toNat, Prints.unsigned numeral_plain_hexval ?_ rfl⟩
    rw [UInt64.ofNat_toNat]
    exact (prints_pure v).expect rfl rfl
  have list := (prints_pure (values.map id)).many each (rfl : scan (.code []) "\x7d".toList = _) rfl
  rw [bind_pure, List.map_id] at list
  exact list.expect rfl rfl

/-- What the constructor of a field is called with. -/
def Field.args (field : Field) : FieldArgs :=
  let lists := field.input.process.genModelInitCode
  ⟨field.offset, field.nBytes, lists.bits, lists.magics, lists.rangeSpecials⟩

theorem prints_field (field : Field) (baseIndent : Nat) :
    Prints plain readField (field.genModelInitCode baseIndent) field.args := by
  have base : Printed plain (List.replicate baseIndent ' ') [] := printed_blanks baseIndent rfl
  have indent : Printed plain (List.replicate (8 + baseIndent) ' ') [] := printed_blanks _ rfl
  unfold Field.genModelInitCode readField
  simp only [List.flatten_cons]
  refine Prints.skip ?_ base
  refine Prints.expect ?_ rfl rfl
  refine prints_signedDecimal ?_ rfl
  refine Prints.expect ?_ rfl rfl
  refine prints_signedDecimal ?_ rfl
  refine Prints.expect ?_ rfl rfl
  refine Prints.skip ?_ indent
  refine Prints.bind (prints_hexList _) ?_
  refine Prints.expect ?_ rfl rfl
  refine Prints.skip ?_ indent
  refine Prints.bind (prints_hexList _) ?_
  refine Prints.expect ?_ rfl rfl
  refine Prints.skip ?_ indent
  refine Prints.bind (prints_hexList _) ?_
  refine Prints.expect ?_ rfl rfl
  exact prints_pure field.args

theorem printsFrom_entry (baseIndent : Nat) (p : Int × Field) :
    PrintsFrom plain "\x7b".toList readEntry (entry baseIndent p) (p.1, p.2.args) := by
  unfold entry readEntry
  simp only [List.flatten_cons]
  refine Prints.expectFrom ?_ rfl rfl rfl
  refine prints_signedDecimal ?_ rfl
  refine Prints.expect ?_ rfl rfl
  refine Prints.bind (prints_field p.2 baseIndent) ?_
  refine Prints.expect ?_ rfl rfl
  exact prints_pure (p.1, p.2.args)

/-- The fields that are emitted, with their arguments. -/
def fieldArgs (fields : Fields) : List (Int × FieldArgs) := (kept fields).map fun p => (p.1, p.2.args)

section

variable {β : Type} {f : List (Int × FieldArgs) → Reader β} {text : Text} {b : β}

/-- A map, however its fields are indented. -/
theorem prints_entries {fields : Fields} (baseIndent : Int × Field → Nat)
    (prints : Prints plain (f (fieldArgs fields)) text b) :
    Prints plain (readEntries >>= f)
      ((kept fields).flatMap (fun p => entry (baseIndent p) p) ++ ("\x7d".toList ++ text)) b :=
  Prints.many prints (fun p _ => ⟨_, by decide, printsFrom_entry (baseIndent p) p⟩) rfl rfl

end

def DmaStruct.args (s : DmaStruct) : DmaArgs := ⟨s.buflen, s.structLen, fieldArgs s.fields⟩

theorem printsFrom_dma (s : DmaStruct) : PrintsFrom plain "DMAInputModel".toList readDma s.text s.args := by
  unfold DmaStruct.text readDma
  simp only [List.flatten_cons]
  refine Prints.expectFrom ?_ rfl rfl rfl
  refine prints_signedDecimal ?_ rfl
  refine Prints.expect ?_ rfl rfl
  refine prints_signedDecimal ?_ rfl
  refine Prints.expect ?_ rfl rfl
  refine prints_entries (fun _ => 0) ?_
  refine Prints.expect ?_ rfl rfl
  exact prints_pure s.args

/-! ### Statements -/

/-- The text of a call, where numbers are printed by `print`. -/
def callText (print : Nat → Text) (name : Text) (first : Int) (others : List Int) : Text :=
  ["model->".toList, name, "(".toList, signed print first, others.flatMap (fun a => ", ".toList ++ signed print a),
    ")".toList, ";\n".toList].flatten

theorem printsFrom_call {print : Nat → Text} (numeral : Numeral plain print) {name : Text}
    (letters : ∀ char ∈ name, isWord char = true) (chars : ∀ char ∈ name, plain char = true) (nonempty : name ≠ [])
    (first : Int) (others : List Int) :
    PrintsFrom plain "model".toList readStatement (callText print name first others) (.call name (first :: others)) := by
  have called : PrintsFrom plain "model".toList readCall (callText print name first others)
      (.call name (first :: others)) := by
    unfold callText readCall
    simp only [List.flatten_cons]
    refine Prints.expectFrom ?_ rfl rfl rfl
    refine Prints.afterWord ?_ letters chars nonempty rfl
    refine Prints.expect ?_ rfl rfl
    have last : Prints plain (expect ";".toList >>= fun _ => pure (Statement.call name (first :: others)))
        (";\n".toList ++ []) (.call name (first :: others)) := Prints.expect (prints_pure _) rfl rfl
    obtain ⟨list, opens⟩ := Prints.arguments (f := fun others => expect ";".toList >>= fun _ =>
        pure (Statement.call name (first :: others))) (l := others) numeral rfl rfl last
      (rfl : scan (.code []) ")".toList = _) rfl rfl (by decide)
    exact Prints.signed numeral rfl list opens
  obtain ⟨toks, printed, reads⟩ := called
  exact ⟨toks, printed, fun rest => (if_neg fun same => absurd (Option.some.inj same) (by decide)).trans (reads rest)⟩

theorem printsFrom_secondary (call : SetSecondaryDMAInfo) :
    PrintsFrom plain "model".toList readStatement (secondaryText call)
      (.call "setSecondaryDMAInfo".toList (call.dmaStructSz :: otherArgs call)) := by
  unfold secondaryText
  rw [signedDecimal_eq]
  exact printsFrom_call (numeral_decimal plain_digitChar) (List.all_eq_true.mp rfl) (List.all_eq_true.mp rfl) (by decide) _ _

theorem hex_eq : hex = signed hexval := by
  funext value
  cases value with
  | ofNat value => simp [hex, signed]
  | negSucc value => simp [hex, signed, Int.negSucc_not_nonneg]

/-- A line of the code that `analyze` of `profile_dma.py` makes. -/
theorem line_eq (s : Profile.Statement) : s.line ++ ['\n'] = callText hexval s.setter.name s.reg [s.sz] := by
  have regroup : ∀ a b c d e f g h i : Text, g ++ h = i → a ++ b ++ c ++ d ++ e ++ f ++ g ++ h =
      a ++ (b ++ (c ++ (d ++ (e ++ f ++ i)))) := by
    intro a b c d e f g h i same
    simp [← same]
  have last : ");".toList ++ ['\n'] = ")".toList ++ (";\n".toList ++ []) := rfl
  calc s.line ++ ['\n']
    _ = "model->".toList ++ (s.setter.name ++ ("(".toList ++ (hex s.reg ++ (", ".toList ++ hex s.sz ++
          (")".toList ++ (";\n".toList ++ [])))))) := regroup _ _ _ _ _ _ _ _ _ last
    _ = callText hexval s.setter.name s.reg [s.sz] := by
      rw [hex_eq]
      unfold callText
      rw [List.flatMap_singleton]
      rfl

theorem printsFrom_line (s : Profile.Statement) :
    PrintsFrom plain "model".toList readStatement (s.line ++ ['\n']) (.call s.setter.name [s.reg, s.sz]) := by
  have name : (∀ char ∈ s.setter.name, isWord char = true) ∧ (∀ char ∈ s.setter.name, plain char = true) ∧
      s.setter.name ≠ [] := by
    cases s.setter with
    | setDMAReg => exact ⟨List.all_eq_true.mp rfl, List.all_eq_true.mp rfl, by decide⟩
    | setDMATopHalfReg => exact ⟨List.all_eq_true.mp rfl, List.all_eq_true.mp rfl, by decide⟩
    | setDMABottomHalfReg => exact ⟨List.all_eq_true.mp rfl, List.all_eq_true.mp rfl, by decide⟩
  rw [line_eq]
  exact printsFrom_call numeral_plain_hexval name.1 name.2.1 name.2.2 _ _

theorem printsFrom_usb {usb : Fields} (some : usb.isEmpty = false) :
    PrintsFrom plain "unordered_map".toList readStatement (usbText usb) (.setUSBModel (fieldArgs usb)) := by
  have title : Printed plain "\n// USB Buffer Protocol Model\n".toList [] := printed_literal rfl rfl
  have legend : Printed plain "// Maps buffer offset -> expected values (magic bytes, protocol constants)\n".toList [] :=
    printed_literal (by decide +kernel) (by decide +kernel)
  have defined : PrintsFrom plain "unordered_map".toList readUsb
      ["unordered_map<int, HWInput> usb_mdl =\n\x7b\n".toList, entries usb, "\x7d".toList, ";\n".toList,
        "model->setUSBModel(usb_mdl);\n".toList].flatten (.setUSBModel (fieldArgs usb)) := by
    unfold entries readUsb
    simp only [List.flatten_cons]
    refine Prints.expectFrom ?_ rfl rfl rfl
    refine prints_entries _ ?_
    refine Prints.expect ?_ rfl rfl
    refine Prints.expect ?_ rfl rfl
    exact prints_pure (Statement.setUSBModel (fieldArgs usb))
  obtain ⟨toks, printed, reads⟩ := defined
  refine ⟨toks, ?_, fun rest => (if_pos rfl).trans (reads rest)⟩
  rw [usbText, some]
  exact title.append (legend.append printed)

/-! ### The body -/

/-- The statements of a model with their texts: `usb_mdl`, the secondary buffers, and the registers. -/
def statements (usb : Fields) (secondary : List SetSecondaryDMAInfo) (regs : List Profile.Statement) :
    List (Text × Statement) :=
  (if usb.isEmpty then [] else [(usbText usb, Statement.setUSBModel (fieldArgs usb))]) ++
    secondary.map (fun call =>
      (secondaryText call, .call "setSecondaryDMAInfo".toList (call.dmaStructSz :: otherArgs call))) ++
    regs.map fun s => (s.line ++ ['\n'], .call s.setter.name [s.reg, s.sz])

theorem flatMap_statements (usb : Fields) (secondary : List SetSecondaryDMAInfo) (regs : List Profile.Statement) :
    (statements usb secondary regs).flatMap Prod.fst = usbText usb ++ secondary.flatMap secondaryText ++ code regs := by
  rw [statements, List.flatMap_append, List.flatMap_append, List.flatMap_map, List.flatMap_map]
  congr 2
  cases empty : usb.isEmpty with
  | false => simp
  | true => simp [usbText, empty]

theorem printsFrom_statement {usb : Fields} {secondary : List SetSecondaryDMAInfo} {regs : List Profile.Statement} :
    ∀ p ∈ statements usb secondary regs, ∃ tok, tok ≠ "return".toList ∧ PrintsFrom plain tok readStatement p.1 p.2 := by
  intro p member
  rw [statements, List.mem_append, List.mem_append] at member
  rcases member with (member | member) | member
  · cases empty : usb.isEmpty with
    | true => simp [empty] at member
    | false =>
      obtain rfl : p = (usbText usb, .setUSBModel (fieldArgs usb)) := by simpa [empty] using member
      exact ⟨_, by decide, printsFrom_usb empty⟩
  · obtain ⟨call, -, rfl⟩ := List.mem_map.mp member
    exact ⟨_, by decide, printsFrom_secondary call⟩
  · obtain ⟨s, -, rfl⟩ := List.mem_map.mp member
    exact ⟨_, by decide, printsFrom_line s⟩

/-- What is read of a model. -/
def Models.body (models : Models) (devName : Text) (secondary : List SetSecondaryDMAInfo) (regs : List Profile.Statement) :
    Body :=
  ⟨fieldArgs models.mmio, models.dma.map DmaStruct.args, devName, (statements models.usb secondary regs).map Prod.snd⟩

/-- The text of a body without the blanks that the script puts around the parts. -/
def bodyText (models : Models) (devName : Text) (secondary : List SetSecondaryDMAInfo) (regs : List Profile.Statement) :
    Text :=
  ["unordered_map<int, HWInput> mmio_mdl =\n\x7b\n".toList, entries models.mmio, "\x7d".toList, ";\n\n".toList,
    "vector<DMAInputModel> dma_mdl = \x7b\n".toList, models.dma.flatMap DmaStruct.text, "\x7d".toList, ";\n".toList,
    "auto * model = new Stage2HWModel(\"".toList, devName, "\", mmio_mdl, dma_mdl);\n".toList,
    (statements models.usb secondary regs).flatMap Prod.fst, "return ".toList, "model;\n".toList].flatten

theorem prints_body (models : Models) {devName : Text} (letters : ∀ char ∈ devName, isWord char = true)
    (chars : ∀ char ∈ devName, plain char = true) (nonempty : devName ≠ []) (secondary : List SetSecondaryDMAInfo)
    (regs : List Profile.Statement) :
    Prints plain readBody (bodyText models devName secondary regs) (models.body devName secondary regs) := by
  unfold bodyText entries readBody
  simp only [List.flatten_cons]
  refine Prints.expect ?_ rfl rfl
  refine prints_entries _ ?_
  refine Prints.expect ?_ rfl rfl
  refine Prints.expect ?_ rfl rfl
  refine Prints.many ?_ (fun s _ => ⟨_, by decide, printsFrom_dma s⟩) rfl rfl
  refine Prints.expect ?_ rfl rfl
  refine Prints.expect ?_ rfl rfl
  refine Prints.afterWord ?_ letters chars nonempty rfl
  refine Prints.expect ?_ rfl rfl
  refine Prints.many ?_ printsFrom_statement rfl rfl
  refine Prints.expect ?_ rfl rfl
  exact prints_pure (models.body devName secondary regs)

end DevFuzz.Analysis.InitCode
