import DevFuzz.Analysis.InitCode
import DevFuzz.Lib.Lines

/-! # From the output of the analysis to a file

`tools/generate_postprobing_model.py` runs the analysis, takes what it has printed between two marks for a model, and
writes a function that constructs it.  A field with nothing recorded is left out with a warning, and the warning is
printed between the marks as well: then what the script writes is not C++.
-/

namespace DevFuzz.Analysis.ModelFile

open DevFuzz.Lib DevFuzz.Lib.Strings DevFuzz.Lib.Tokens DevFuzz.Lib.Readers DevFuzz.Lib.Lines InitCode SecondaryDMA

/-! ## The script -/

/-- What is printed around the model, with the colours of `--- DONE! ---`. -/
def startMark : Text := "=========Stage2 Model Init Code============\n".toList

def doneMark : Text := "\x1b[36m--- DONE! ---\x1b[0m\n".toList

/-- The loop over the lines: `start` and `end`, and the number of the next line. -/
def markLine (first last : Text) (s : (Nat × Nat) × Nat) (line : Text) : (Nat × Nat) × Nat :=
  if search first line then ((s.2 + 1, s.1.2), s.2 + 1)
  else if search last line then ((s.1.1, s.2), s.2 + 1)
  else (s.1, s.2 + 1)

/-- `output[start:end]` -/
def cut (first last : Text) (output : List Text) : List Text :=
  let marks := (output.foldl (markLine first last) ((0, 0), 0)).1
  (output.take marks.2).drop marks.1

def template : Text :=
  "Stage2HWModel * new_stage2_model_".toList ++ ("<NAME>".toList ++ ("() \x7b\n".toList ++
    ("<MODEL_DEF>".toList ++ ("\n".toList ++ ("<DMA_REG_DEF>".toList ++ "\n  return model;\n\x7d\n".toList)))))

/-- The text that is appended to the file.  `regDefs` is there if the registers have been profiled. -/
def codegen (name output : Text) (regDefs : Option Text) : Option Text := do
  let mdl := (cut "Stage2 Model Init Code".toList "DONE!".toList (readlines output)).flatMap ("  ".toList ++ ·)
  let code ← reSub "<MODEL_DEF>".toList mdl template
  let code ← reSub "<NAME>".toList name code
  match regDefs with
  | none => reSub "<DMA_REG_DEF>".toList [] code
  | some defs => reSub "<DMA_REG_DEF>".toList ("  ".toList ++ defs) code

/-! ## The lines between the marks -/

section

variable {first last : Text}

/-- No mark is in the text. -/
def Unmarked (first last text : Text) : Prop := search first text = false ∧ search last text = false

theorem foldl_unmarked {lines : List Text} (unmarked : ∀ line ∈ lines, Unmarked first last line)
    (s : (Nat × Nat) × Nat) : lines.foldl (markLine first last) s = (s.1, s.2 + lines.length) := by
  induction lines generalizing s with
  | nil => rfl
  | cons line lines ih =>
    rw [List.forall_mem_cons] at unmarked
    have here : markLine first last s line = (s.1, s.2 + 1) := by simp [markLine, unmarked.1.1, unmarked.1.2]
    rw [List.foldl_cons, here, ih unmarked.2, List.length_cons]
    exact Prod.ext rfl (by dsimp only; omega)

theorem foldl_length (lines : List Text) (s : (Nat × Nat) × Nat) :
    (lines.foldl (markLine first last) s).2 = s.2 + lines.length := by
  induction lines generalizing s with
  | nil => rfl
  | cons line lines ih =>
    have here : (markLine first last s line).2 = s.2 + 1 := by
      unfold markLine
      split_ifs <;> rfl
    rw [List.foldl_cons, ih, here, List.length_cons]
    omega

/-- The lines behind the last start mark and before the last end mark are taken. -/
theorem cut_eq {before within after : List Text} {start done : Text} (starts : search first start = true)
    (ends : search first done = false ∧ search last done = true)
    (inside : ∀ line ∈ within, Unmarked first last line) (outside : ∀ line ∈ after, Unmarked first last line) :
    cut first last (before ++ [start] ++ within ++ [done] ++ after) = within := by
  have marks : ((before ++ [start] ++ within ++ [done] ++ after).foldl (markLine first last) ((0, 0), 0)).1 =
      (before.length + 1, before.length + 1 + within.length) := by
    have number : (before.foldl (markLine first last) ((0, 0), 0)).2 = before.length := by
      rw [foldl_length, Nat.zero_add]
    rw [List.foldl_append, foldl_unmarked outside]
    simp only [List.foldl_append, List.foldl_cons, List.foldl_nil]
    rw [foldl_unmarked inside]
    simp [markLine, starts, ends.1, ends.2, number]
  rw [cut, marks]
  have length : (before ++ [start] ++ within).length = before.length + 1 + within.length := by
    simp only [List.length_append, List.length_singleton]
  have front : (before ++ [start]).length = before.length + 1 := by simp
  rw [List.append_assoc _ [done], ← length, List.take_left, ← front, List.drop_left]

end

/-! ## The text of a model -/

/-- Every field that is printed with a warning has something recorded. -/
def complete (models : Models) : Bool :=
  (models.mmio.all fun p => !p.2.input.empty) && models.dma.all fun s => s.fields.all fun p => !p.2.input.empty

/-- What is printed behind the warnings. -/
def codeText (models : Models) (secondary : List SetSecondaryDMAInfo) : Text :=
  genStage2ModelInitCode "XXX".toList models ++ secondary.flatMap secondaryText

theorem ends_warn (message : Text) : Ends (warn message) := ends_append rfl _

theorem ends_warnings (models : Models) : Ends (warnings models) := by
  refine Ends.append (ends_flatMap fun _ _ => ends_warn _) (ends_flatMap fun s _ => ?_)
  exact ends_flatMap fun _ _ => ends_warn _

theorem ends_codeText (models : Models) (secondary : List SetSecondaryDMAInfo) : Ends (codeText models secondary) := by
  have usb : Ends (usbText models.usb) := by
    unfold usbText
    split_ifs
    · exact ends_nil
    · exact ends_flatten rfl rfl
  exact ((ends_flatten rfl rfl).append usb).append (ends_flatMap fun call _ => ends_flatten rfl rfl)

/-- The text of a body, with the parts that the analysis and the script print. -/
theorem bodyText_eq (models : Models) (secondary : List SetSecondaryDMAInfo) (regs : List Profile.Statement) :
    bodyText models "XXX".toList secondary regs =
      codeText models secondary ++ (Profile.code regs ++ ("return ".toList ++ "model;\n".toList)) := by
  have regroup : ∀ a b c d e f g h i j k usb secondary regs x y : Text,
      [a, b, c, d, e, f, g, h, i, j, k, usb ++ secondary ++ regs, x, y].flatten =
        [a, b, c, d, e, f, g, h, i, j, k].flatten ++ usb ++ secondary ++ (regs ++ (x ++ y)) := by
    intros
    simp
  unfold bodyText
  rw [flatMap_statements]
  exact regroup _ _ _ _ _ _ _ _ _ _ _ _ _ _ _ _

theorem scan_of_ends {text : Text} (ends : Ends text) : (scan (.code []) text).1 = .code [] := by
  rcases List.eq_nil_or_concat text with rfl | ⟨front, last, rfl⟩
  · rfl
  · obtain rfl : last = '\n' := ends last (by simp)
    rw [List.concat_eq_append]
    exact scan_newline _ _

/-- The parts of a body are whole, and together they are read. -/
theorem printed_parts (models : Models) (secondary : List SetSecondaryDMAInfo) (regs : List Profile.Statement) :
    ∃ front back, Printed plain (codeText models secondary) front ∧ Printed plain (Profile.code regs) back ∧
      Reads readBody (front ++ (back ++ tokens "return model;".toList)) (models.body "XXX".toList secondary regs) := by
  have letters : ∀ char ∈ "XXX".toList, isWord char = true := List.all_eq_true.mp rfl
  have chars : ∀ char ∈ "XXX".toList, plain char = true := List.all_eq_true.mp rfl
  obtain ⟨toks, printed, reads⟩ := prints_body models letters chars (by decide) secondary regs
  rw [bodyText_eq] at printed
  have regsEnd : Ends (Profile.code regs) := ends_flatMap fun s _ => ends_append rfl _
  have first := scan_of_ends (ends_codeText models secondary)
  have second := scan_of_ends regsEnd
  refine ⟨_, _, ⟨Prod.ext first rfl, fun char member => printed.chars char (by simp [member])⟩,
    ⟨Prod.ext second rfl, fun char member => printed.chars char (by simp [member])⟩, ?_⟩
  have last : scan (.code []) ("return ".toList ++ "model;\n".toList) = (.code [], tokens "return model;".toList) := rfl
  have whole := printed.scan
  rw [scan_append, first, scan_append, second, last] at whole
  have same : (scan (.code []) (codeText models secondary)).2 ++
      ((scan (.code []) (Profile.code regs)).2 ++ tokens "return model;".toList) = toks := (Prod.ext_iff.mp whole).2
  rw [same]
  exact reads

/-! ## What the script takes -/

/-- Neither in the warnings nor in the code. -/
def quiet (char : Char) : Bool := !(char == 'C' || char == '!' || char == 'G' || char == '\\')

theorem quiet_of_plain {char : Char} (isPlain : plain char = true) : quiet char = true := by
  simp only [plain, Bool.not_eq_true', Bool.or_eq_false_iff] at isPlain
  simp [quiet, isPlain]

/-- A warning has no angle bracket either. -/
def warned (char : Char) : Bool := quiet char && !(char == '<')

theorem warn_chars {message : Text} (allowed : message.all warned = true) :
    ∀ char ∈ warn message, warned char = true := by
  intro char member
  rcases List.mem_append.mp member with member | member
  · rcases List.mem_append.mp member with member | member
    · exact List.all_eq_true.mp (rfl : "\x1b[33mWARN:".toList.all warned = true) char member
    · exact List.all_eq_true.mp allowed char member
  · exact List.all_eq_true.mp (rfl : "\x1b[0m\n".toList.all warned = true) char member

theorem warnings_chars (models : Models) : ∀ char ∈ warnings models, warned char = true := by
  intro char member
  rcases List.mem_append.mp member with member | member
  · obtain ⟨p, -, member⟩ := List.mem_flatMap.mp member
    exact warn_chars rfl char member
  · obtain ⟨s, -, member⟩ := List.mem_flatMap.mp member
    obtain ⟨p, -, member⟩ := List.mem_flatMap.mp member
    exact warn_chars rfl char member

theorem codeText_chars (models : Models) (secondary : List SetSecondaryDMAInfo) :
    ∀ char ∈ codeText models secondary, plain char = true := by
  obtain ⟨front, -, printed, -, -⟩ := printed_parts models secondary []
  exact printed.chars

theorem passSection_eq (models : Models) (secondary : List SetSecondaryDMAInfo) :
    passSection models secondary = warnings models ++ (codeText models secondary ++ "\n".toList) := by
  rw [passSection, codeText]
  simp only [List.append_assoc]

theorem passSection_chars (models : Models) (secondary : List SetSecondaryDMAInfo) :
    ∀ char ∈ passSection models secondary, quiet char = true := by
  intro char member
  rw [passSection_eq] at member
  rcases List.mem_append.mp member with member | member
  · exact (Bool.and_eq_true_iff.mp (warnings_chars models char member)).1
  · rcases List.mem_append.mp member with member | member
    · exact quiet_of_plain (codeText_chars models secondary char member)
    · exact List.all_eq_true.mp (rfl : "\n".toList.all quiet = true) char member

theorem ends_passSection (models : Models) (secondary : List SetSecondaryDMAInfo) :
    Ends (passSection models secondary) := ends_append rfl _

/-- The text between the marks is what the analysis has printed for the model. -/
theorem cut_output (before : Text) (models : Models) (secondary : List SetSecondaryDMAInfo) {after : Text}
    (unmarked : Unmarked "Stage2 Model Init Code".toList "DONE!".toList after) :
    cut "Stage2 Model Init Code".toList "DONE!".toList
        (readlines (before ++ startMark ++ passSection models secondary ++ doneMark ++ after)) =
      readlines (passSection models secondary) := by
  have single : '\n' ∉ "=========Stage2 Model Init Code============".toList := by decide +kernel
  have mark : startMark = "=========Stage2 Model Init Code============".toList ++ ['\n'] := by decide +kernel
  obtain ⟨lines, start, found⟩ := readlines_concat before single
  have quietLine : ∀ line ∈ readlines (passSection models secondary),
      Unmarked "Stage2 Model Init Code".toList "DONE!".toList line := by
    intro line member
    have chars : ∀ char ∈ line, quiet char = true := fun char inLine =>
      passSection_chars models secondary char ((infix_of_mem_readlines member).subset inLine)
    constructor
    · exact search_of_notMem (by decide +kernel : 'C' ∈ _) fun inLine => absurd (chars _ inLine) (by decide)
    · exact search_of_notMem (by decide +kernel : '!' ∈ _) fun inLine => absurd (chars _ inLine) (by decide)
  have done : readlines doneMark = [doneMark] := by decide +kernel
  rw [← mark] at found
  rw [List.append_assoc, List.append_assoc, readlines_append (ends_append rfl before), found,
    readlines_append (ends_passSection models secondary), readlines_append (ends_literal rfl), done]
  have starts : search "Stage2 Model Init Code".toList (start ++ startMark) = true := by
    rw [search_iff_isInfix]
    have inside : "Stage2 Model Init Code".toList <:+: startMark := by
      rw [← search_iff_isInfix]
      decide +kernel
    exact inside.trans (List.suffix_append start startMark).isInfix
  have ends : search "Stage2 Model Init Code".toList doneMark = false ∧ search "DONE!".toList doneMark = true := by
    decide +kernel
  have outside : ∀ line ∈ readlines after, Unmarked "Stage2 Model Init Code".toList "DONE!".toList line := fun line member =>
    ⟨search_of_part unmarked.1 (infix_of_mem_readlines member), search_of_part unmarked.2 (infix_of_mem_readlines member)⟩
  have taken : cut "Stage2 Model Init Code".toList "DONE!".toList (lines ++ [start ++ startMark] ++
      readlines (passSection models secondary) ++ [doneMark] ++ readlines after) =
        readlines (passSection models secondary) := cut_eq starts ends quietLine outside
  rw [List.append_assoc, List.append_assoc] at taken
  exact taken

/-! ## The file -/

/-- The text that the script writes. -/
def fileText (name mdl regDefs : Text) : Text :=
  "Stage2HWModel * new_stage2_model_".toList ++ (name ++ ("() \x7b\n".toList ++ (mdl ++ ("\n".toList ++
    (regDefs ++ "\n  return model;\n\x7d\n".toList)))))

theorem not_backslash_of_isWord {char : Char} (letter : isWord char = true) : char ≠ '\\' ∧ char ≠ '<' := by
  constructor
  · rintro rfl
    cases letter
  · rintro rfl
    cases letter

/-- Three placeholders that are replaced one after the other, the second one first. -/
theorem reSub_thrice {a n n' c m m' d d' z name mdl regDefs : Text} (nShape : n = '<' :: n') (nOnce : '<' ∉ n')
    (mShape : m = '<' :: m') (mOnce : '<' ∉ m') (dShape : d = '<' :: d') (dOnce : '<' ∉ d')
    (nameLiteral : '\\' ∉ name) (mdlLiteral : '\\' ∉ mdl) (regsLiteral : '\\' ∉ regDefs)
    (mFront : search m (a ++ (n ++ c)) = false) (mBack : search m (['\n'] ++ (d ++ z)) = false)
    (nFront : search n a = false) (nBack : search n (c ++ (mdl ++ (['\n'] ++ (d ++ z)))) = false)
    (dFront : search d (a ++ (name ++ (c ++ (mdl ++ ['\n'])))) = false) (dBack : search d z = false) :
    (do
      let code ← reSub m mdl (a ++ (n ++ (c ++ (m ++ (['\n'] ++ (d ++ z))))))
      let code ← reSub n name code
      reSub d regDefs code) = some (a ++ (name ++ (c ++ (mdl ++ (['\n'] ++ (regDefs ++ z)))))) := by
  have first := reSub_once mShape mOnce mdlLiteral mFront mBack
  have second := reSub_once nShape nOnce nameLiteral nFront nBack
  have third := reSub_once dShape dOnce regsLiteral dFront dBack
  simp only [List.append_assoc] at first second third
  rw [first, Option.bind_eq_bind, Option.bind_some, second, Option.bind_some, third]

/-- The placeholders are found, and only where the template has them. -/
theorem reSub_template {name mdl regDefs : Text} (letters : ∀ char ∈ name, isWord char = true)
    (mdlLiteral : '\\' ∉ mdl) (regsLiteral : '\\' ∉ regDefs)
    (unnamed : search "<NAME>".toList mdl = false) (noRegs : 'G' ∉ mdl) :
    (do
      let code ← reSub "<MODEL_DEF>".toList mdl template
      let code ← reSub "<NAME>".toList name code
      reSub "<DMA_REG_DEF>".toList regDefs code) = some (fileText name mdl regDefs) := by
  have nBack : search "<NAME>".toList ("() \x7b\n".toList ++ (mdl ++ (['\n'] ++
      ("<DMA_REG_DEF>".toList ++ "\n  return model;\n\x7d\n".toList)))) = false := by
    refine search_append_newline "() \x7b".toList (by decide +kernel) (by decide +kernel) ?_
    exact search_append_newline mdl (by decide +kernel) unnamed (by decide +kernel)
  have dFront : search "<DMA_REG_DEF>".toList ("Stage2HWModel * new_stage2_model_".toList ++ (name ++
      ("() \x7b\n".toList ++ (mdl ++ ['\n'])))) = false := by
    have regroup : ∀ a b c rest : Text, a ++ (b ++ ((c ++ ['\n']) ++ rest)) = (a ++ (b ++ c)) ++ '\n' :: rest := by
      intros
      simp
    have header : '<' ∉ "Stage2HWModel * new_stage2_model_".toList ++ (name ++ "() \x7b".toList) := by
      intro member
      rcases List.mem_append.mp member with member | member
      · exact absurd member (by decide +kernel)
      · rcases List.mem_append.mp member with member | member
        · exact (not_backslash_of_isWord (letters _ member)).2 rfl
        · exact absurd member (by decide)
    have within : 'G' ∉ mdl ++ ['\n'] := by simp [noRegs]
    refine (congrArg _ (regroup _ name "() \x7b".toList _)).trans ?_
    exact search_append_newline _ (by decide +kernel) (search_of_notMem (by decide +kernel) header)
      (search_of_notMem (by decide +kernel) within)
  exact reSub_thrice rfl (by decide) rfl (by decide) rfl (by decide)
    (fun member => (not_backslash_of_isWord (letters _ member)).1 rfl) mdlLiteral regsLiteral (by decide +kernel)
    (by decide +kernel) (by decide +kernel) nBack dFront (by decide +kernel)

/-! ### What is in the file -/

/-- The lines that are taken, indented. -/
def mdlText (models : Models) (secondary : List SetSecondaryDMAInfo) : Text :=
  (readlines (passSection models secondary)).flatMap ("  ".toList ++ ·)

/-- Blanks and what has been in the text. -/
theorem indented_chars {ok : Char → Bool} (blank : ok ' ' = true) {text : Text} (chars : ∀ char ∈ text, ok char = true) :
    ∀ char ∈ (readlines text).flatMap ("  ".toList ++ ·), ok char = true := by
  intro char member
  obtain ⟨line, inText, member⟩ := List.mem_flatMap.mp member
  rcases List.mem_append.mp member with member | member
  · obtain rfl : char = ' ' := by simpa using member
    exact blank
  · exact chars char ((infix_of_mem_readlines inText).subset member)

theorem mdlText_chars (models : Models) (secondary : List SetSecondaryDMAInfo) :
    ∀ char ∈ mdlText models secondary, quiet char = true :=
  indented_chars rfl (passSection_chars models secondary)

/-- Neither the warnings nor the code have the name of the placeholder. -/
theorem search_mdlText (models : Models) (secondary : List SetSecondaryDMAInfo) :
    search "<NAME>".toList (mdlText models secondary) = false := by
  rw [mdlText, passSection_eq, readlines_append (ends_warnings models), List.flatMap_append]
  refine search_append_ends ?_ (by decide) ?_ ?_
  · refine ends_flatMap fun line member => ?_
    obtain ⟨start, rfl⟩ := exists_of_mem_readlines (ends_warnings models) member
    rw [← List.append_assoc]
    exact ends_append rfl _
  · refine search_of_notMem (by decide : '<' ∈ _) fun member => ?_
    exact absurd (indented_chars rfl (warnings_chars models) _ member) (by decide)
  · have chars : ∀ char ∈ codeText models secondary ++ "\n".toList, plain char = true := by
      intro char member
      rcases List.mem_append.mp member with member | member
      · exact codeText_chars models secondary char member
      · exact List.all_eq_true.mp (rfl : "\n".toList.all plain = true) char member
    refine search_of_notMem (by decide : 'N' ∈ _) fun member => ?_
    exact absurd (indented_chars rfl chars _ member) (by decide)

/-- Indentation does not change the tokens. -/
theorem scan_mdlText (models : Models) (secondary : List SetSecondaryDMAInfo) :
    scan (.code []) (mdlText models secondary) = scan (.code []) (passSection models secondary) := by
  have blank : ∀ char ∈ "  ".toList, char = ' ' := by simp
  rw [mdlText, scan_indent blank fun line member => exists_of_mem_readlines (ends_passSection models secondary) member,
    flatten_readlines]

/-- The tokens of the file, where any character may stand in the name. -/
theorem tokens_fileText {name mdl regDefs : Text} (letters : ∀ char ∈ name, isWord char = true) {toks regs : List Text}
    (model : scan (.code []) mdl = (.code [], toks)) (registers : scan (.code []) regDefs = (.code [], regs)) :
    tokens (fileText name mdl regDefs) =
      tokens "Stage2HWModel *".toList ++ (("new_stage2_model_".toList ++ name) :: (tokens "() \x7b".toList ++
        (toks ++ (regs ++ (tokens "return model;".toList ++ tokens "\x7d".toList))))) := by
  have fixed : ∀ {text : Text} {toks : List Text}, scan (.code []) text = (.code [], toks) →
      Printed (fun _ => true) text toks := fun scan => ⟨scan, fun _ _ => rfl⟩
  have start : Printed (fun _ => true) "Stage2HWModel * ".toList (tokens "Stage2HWModel *".toList) := fixed rfl
  have opening : Printed (fun _ => true) "() \x7b\n".toList (tokens "() \x7b".toList) := fixed rfl
  have newline : Printed (fun _ => true) "\n".toList [] := fixed rfl
  have closing : Printed (fun _ => true) "\n  return model;\n\x7d\n".toList
      (tokens "return model;".toList ++ tokens "\x7d".toList) := fixed rfl
  have body := opening.append ((fixed model).append (newline.append ((fixed registers).append closing)))
  have word : ∀ char ∈ "new_stage2_model_".toList ++ name, isWord char = true := by
    intro char member
    rcases List.mem_append.mp member with member | member
    · exact List.all_eq_true.mp (rfl : "new_stage2_model_".toList.all isWord = true) char member
    · exact letters char member
  have whole := start.append (body.afterWord word (fun _ _ => rfl) (by simp) rfl)
  have regroup : ∀ a b c rest : Text, (a ++ b) ++ (c ++ rest) = a ++ ((b ++ c) ++ rest) := by
    intros
    simp
  exact (congrArg tokens (regroup "Stage2HWModel * ".toList "new_stage2_model_".toList name _)).trans whole.tokens

/-! ## Reading the file -/

theorem warnings_of_complete {models : Models} (whole : complete models = true) : warnings models = [] := by
  simp only [complete, Bool.and_eq_true, List.all_eq_true, Bool.not_eq_true'] at whole
  have mmio : (models.mmio.filter fun p => p.2.input.empty) = [] :=
    List.filter_eq_nil_iff.mpr fun p member => by simp [whole.1 p member]
  have dma : ∀ s ∈ models.dma, (s.fields.filter fun p => p.2.input.empty) = [] := fun s known =>
    List.filter_eq_nil_iff.mpr fun p member => by simp [whole.2 s known p member]
  rw [warnings, mmio, List.flatMap_nil, List.nil_append, List.flatMap_eq_nil_iff]
  intro s known
  rw [dma s known]
  rfl

/-- The text is empty or starts with the colour of a warning. -/
def Coloured (text : Text) : Prop := text = [] ∨ ∃ rest, text = '\x1b' :: rest

theorem Coloured.append {left right : Text} (first : Coloured left) (second : Coloured right) :
    Coloured (left ++ right) := by
  rcases first with rfl | ⟨rest, rfl⟩
  · exact second
  · exact .inr ⟨rest ++ right, rfl⟩

theorem coloured_flatMap {α : Type} {l : List α} {f : α → Text} (each : ∀ a ∈ l, Coloured (f a)) :
    Coloured (l.flatMap f) := by
  induction l with
  | nil => exact .inl rfl
  | cons a l ih =>
    rw [List.forall_mem_cons] at each
    exact each.1.append (ih each.2)

theorem coloured_warn (message : Text) : Coloured (warn message) := .inr ⟨_, rfl⟩

theorem warnings_of_incomplete {models : Models} (incomplete : complete models = false) :
    ∃ rest, warnings models = '\x1b' :: rest := by
  have coloured : Coloured (warnings models) :=
    (coloured_flatMap fun _ _ => coloured_warn _).append
      (coloured_flatMap fun s _ => coloured_flatMap fun _ _ => coloured_warn _)
  rcases coloured with none | some
  · have nonempty : ∀ message, warn message ≠ [] := fun message empty => by cases empty
    rw [warnings, List.append_eq_nil_iff, List.flatMap_eq_nil_iff, List.flatMap_eq_nil_iff] at none
    have whole : complete models = true := by
      simp only [complete, Bool.and_eq_true, List.all_eq_true, Bool.not_eq_true', Bool.eq_false_iff]
      refine ⟨fun p member empty => ?_, fun s known p member empty => ?_⟩
      · exact nonempty _ (none.1 p (List.mem_filter.mpr ⟨member, empty⟩))
      · exact nonempty _ (List.flatMap_eq_nil_iff.mp (none.2 s known) p (List.mem_filter.mpr ⟨member, empty⟩))
    rw [whole] at incomplete
    cases incomplete
  · exact some

theorem reads_head (name : Text) :
    Reads readHead (tokens "Stage2HWModel *".toList ++ ([name] ++ (tokens "() \x7b".toList ++ []))) name :=
  (reads_accept _).bind ((reads_nextToken name).bind ((reads_accept _).bind (reads_pure name)))

/-- A warning is no declaration. -/
theorem readBody_warning (toks : List Text) : readBody (['\x1b'] :: toks) = none := by
  have first : (tokens "unordered_map<int, HWInput> mmio_mdl = \x7b".toList).head? = some "unordered_map".toList := by
    decide +kernel
  exact bind_eq_none (accept_eq_none first (by decide) toks) _

/-- Behind its head, a function is read by its body. -/
theorem readFunction_head (name : Text) (toks : List Text) :
    readFunction (tokens "Stage2HWModel *".toList ++ (name :: (tokens "() \x7b".toList ++ toks))) =
      (readBody >>= fun body => expect "\x7d".toList >>= fun _ => pure (name, body)) toks := by
  have head := (reads_head name).bind_apply
    (fun name => readBody >>= fun body => expect "\x7d".toList >>= fun _ => pure (name, body)) toks
  simp only [List.append_assoc, List.cons_append, List.nil_append, List.append_nil] at head
  exact head

/-- The code for the registers as it is put into the template. -/
def regText : Option (List Profile.Statement) → Text
  | none => []
  | some regs => "  ".toList ++ Profile.code regs

theorem printed_regText {regs : Option (List Profile.Statement)} {back : List Text}
    (registers : Printed plain (Profile.code (regs.getD [])) back) : Printed plain (regText regs) back := by
  cases regs with
  | none => exact registers
  | some regs => exact (printed_literal (rfl : scan (.code []) "  ".toList = (.code [], [])) rfl).append registers

theorem codegen_eq {name : Text} (letters : ∀ char ∈ name, isWord char = true) (before : Text) (models : Models)
    (secondary : List SetSecondaryDMAInfo) {after : Text}
    (unmarked : Unmarked "Stage2 Model Init Code".toList "DONE!".toList after)
    {regs : Option (List Profile.Statement)} (literal : '\\' ∉ regText regs) :
    codegen name (before ++ startMark ++ passSection models secondary ++ doneMark ++ after) (regs.map Profile.code) =
      some (fileText name (mdlText models secondary) (regText regs)) := by
  have absent : ∀ char, quiet char = false → char ∉ mdlText models secondary := by
    intro char loud member
    rw [mdlText_chars models secondary char member] at loud
    cases loud
  have made := reSub_template letters (absent '\\' rfl) literal (search_mdlText models secondary) (absent 'G' rfl)
  unfold codegen
  rw [cut_output before models secondary unmarked]
  cases regs with
  | none => exact made
  | some regs => exact made

/-- The function in the file constructs the model that the analysis has found, with the registers that were
    profiled, if every field has something recorded; and if not, the file is not read at all. -/
theorem model_of_codegen {name : Text} (letters : ∀ char ∈ name, isWord char = true) (before : Text) (models : Models)
    (secondary : List SetSecondaryDMAInfo) {after : Text}
    (unmarked : Unmarked "Stage2 Model Init Code".toList "DONE!".toList after)
    (regs : Option (List Profile.Statement)) :
    ∃ file, codegen name (before ++ startMark ++ passSection models secondary ++ doneMark ++ after)
        (regs.map Profile.code) = some file ∧
      readFunction (tokens file) =
        if complete models then
          some (("new_stage2_model_".toList ++ name, models.body "XXX".toList secondary (regs.getD [])), [])
        else none := by
  obtain ⟨front, back, code, registers, reads⟩ := printed_parts models secondary (regs.getD [])
  have registers := printed_regText registers
  have literal : '\\' ∉ regText regs := fun member => absurd (registers.chars _ member) (by decide)
  refine ⟨_, codegen_eq letters before models secondary unmarked literal, ?_⟩
  cases whole : complete models with
  | true =>
    have model : scan (.code []) (mdlText models secondary) = (.code [], front) := by
      have newline : Printed plain "\n".toList [] := printed_literal rfl rfl
      rw [scan_mdlText, passSection_eq, warnings_of_complete whole, List.nil_append, (code.append newline).scan,
        List.append_nil]
    have function : Reads (readBody >>= fun body => expect "\x7d".toList >>= fun _ =>
        pure ("new_stage2_model_".toList ++ name, body)) _ _ :=
      reads.bind ((reads_accept (tokens "\x7d".toList)).bind (reads_pure _))
    have found := function []
    simp only [List.append_assoc, List.append_nil] at found
    rw [tokens_fileText letters model registers.scan, readFunction_head, if_pos rfl]
    exact found
  | false =>
    obtain ⟨rest, starts⟩ := warnings_of_incomplete whole
    have model : scan (.code []) (mdlText models secondary) =
        (.code [], ['\x1b'] :: (scan (.code []) (rest ++ (codeText models secondary ++ "\n".toList))).2) := by
      refine Prod.ext ?_ ?_
      · rw [scan_mdlText]
        exact scan_of_ends (ends_passSection models secondary)
      · rw [scan_mdlText, passSection_eq, starts, List.cons_append, scan_cons]
        rfl
    rw [tokens_fileText letters model registers.scan, readFunction_head, if_neg Bool.false_ne_true]
    exact bind_eq_none (readBody_warning _) _

/-- A register of four bytes with one value, and a second one with nothing recorded if `withEmpty`. -/
def statusModel (withEmpty : Bool) : Models where
  mmio := (8, ⟨8, 4, (HWInput.ofSize 4).insertValue 0xff⟩) :: if withEmpty then [(12, ⟨12, 4, HWInput.ofSize 4⟩)] else []
  dma := []
  usb := []

theorem model_of_codegen_statusModel :
    (∃ file, codegen "hpilo".toList ("".toList ++ startMark ++ passSection (statusModel false) [] ++ doneMark ++ "".toList)
        (some (Profile.code [⟨.setDMAReg, 0x10, 0x1000⟩])) = some file ∧
      readFunction (tokens file) = some (("new_stage2_model_".toList ++ "hpilo".toList,
        ⟨[(8, ⟨8, 4, [], [0xff], []⟩)], [], "XXX".toList, [.call "setDMAReg".toList [0x10, 0x1000]]⟩), [])) ∧
      ∃ file, codegen "hpilo".toList ("".toList ++ startMark ++ passSection (statusModel true) [] ++ doneMark ++ "".toList)
        none = some file ∧ readFunction (tokens file) = none := by
  have letters : ∀ char ∈ "hpilo".toList, isWord char = true := List.all_eq_true.mp rfl
  have unmarked : Unmarked "Stage2 Model Init Code".toList "DONE!".toList "".toList := ⟨rfl, rfl⟩
  exact ⟨model_of_codegen letters _ (statusModel false) [] unmarked (some [⟨.setDMAReg, 0x10, 0x1000⟩]),
    model_of_codegen letters _ (statusModel true) [] unmarked none⟩

end DevFuzz.Analysis.ModelFile
