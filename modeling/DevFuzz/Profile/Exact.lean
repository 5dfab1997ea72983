import DevFuzz.Profile.Analyze
import Mathlib.Data.List.Induction

/-! # What the profile finds

Each log line is read back as what was printed (`wlogLine_write`, `klogLine_call`), so
that `analyze` works on the writes and the allocations themselves.  Every register it
reports has been given an address in the first page of an allocation, but of the
registers that have been given the same value it reports one only, the first that Python
takes out of a set: `exact_iff`.
-/

namespace DevFuzz.Profile

open DevFuzz.Lib.Strings

/-! ## Reading the lines back -/

theorem hexval_separated (value : Nat) : ∀ char ∈ hexval value, isSeparator char = false :=
  forall_hexval rfl (by decide)

theorem decimal_separated (value : Nat) : ∀ char ∈ decimal value, isSeparator char = false :=
  forall_toDigits (by decide) (by decide) (by decide)

theorem signedDecimal_separated (value : Int) : ∀ char ∈ signedDecimal value, isSeparator char = false := by
  cases value with
  | ofNat value => exact decimal_separated value
  | negSucc value => exact List.forall_mem_cons.mpr ⟨rfl, decimal_separated _⟩

theorem split_field {isSeparator : Char → Bool} {field : Text} (rest : Text) {separator : Char}
    (separates : isSeparator separator = true) (free : ∀ char ∈ field, isSeparator char = false) :
    (field ++ separator :: rest).splitOnP isSeparator = field :: rest.splitOnP isSeparator :=
  List.splitOnP_append_cons_of_forall_mem free separator separates rest

theorem infoLine_eq (size bar reg val : Text) :
    infoLine size bar reg val = "INFO:write".toList ++ ' ' :: (size ++ ' ' :: ("byte,".toList ++ ' ' ::
      ("bar".toList ++ ' ' :: (bar ++ ' ' :: ("@".toList ++ ' ' :: (reg ++ '=' :: val)))))) := by
  unfold infoLine
  simp

theorem info_fields (w : RegWrite) :
    w.info.splitOnP isSeparator =
      ["INFO:write".toList, decimal w.size.toNat, "byte,".toList, "bar".toList, signedDecimal w.bar, "@".toList,
        hexval w.reg.toNat, hexval w.val.toNat] := by
  have blank : isSeparator ' ' = true := rfl
  have equals : isSeparator '=' = true := rfl
  rw [RegWrite.info, infoLine_eq, split_field _ blank (forall_of_any rfl), split_field _ blank (decimal_separated _),
    split_field _ blank (forall_of_any rfl), split_field _ blank (forall_of_any rfl), split_field _ blank (signedDecimal_separated _),
    split_field _ blank (forall_of_any rfl), split_field _ equals (hexval_separated _),
    List.splitOnP_eq_singleton (hexval_separated _)]

/-- A text that ends in a printed number does not end in a blank. -/
theorem getLast_hexval_solid {before : Text} {value : Nat} (nonempty : before ++ hexval value ≠ []) :
    isSpace ((before ++ hexval value).getLast nonempty) = false := by
  rw [List.getLast_append_of_ne_nil _ (hexval_ne_nil value)]
  exact hexval_solid value _ (List.getLast_mem _)

theorem strip_line {before body : Text} {value : Nat} {first : Char} (solid : isSpace first = false) :
    strip (before ++ (first :: body ++ hexval value) ++ ['\n']) =
      before.dropWhile isSpace ++ (first :: body ++ hexval value) :=
  strip_append before (by simp) solid (getLast_hexval_solid _) (List.forall_mem_singleton.mpr rfl)

theorem search_dropWhile {pattern text : Text} (absent : search pattern text = false) :
    search pattern (text.dropWhile isSpace) = false := by
  rw [← Bool.not_eq_true, search_iff_isInfix] at absent ⊢
  exact fun found => absent (found.trans (List.dropWhile_suffix _).isInfix)

theorem search_strip {pattern text : Text} (absent : search pattern text = false) :
    search pattern (strip text) = false := by
  rw [← Bool.not_eq_true, search_iff_isInfix] at absent ⊢
  exact fun found => absent (found.trans (isInfix_strip text))

theorem strip_info (before : Text) (w : RegWrite) :
    strip (before ++ w.info ++ ['\n']) = before.dropWhile isSpace ++ w.info := by
  have shape : ∀ size bar reg val, infoLine size bar reg val = 'I' :: ("NFO:write ".toList ++ size ++
      " byte, bar ".toList ++ bar ++ " @ ".toList ++ reg ++ "=".toList) ++ val := by
    intro size bar reg val
    unfold infoLine
    simp
  rw [RegWrite.info, shape]
  exact strip_line rfl

theorem wlogLine_write (addr2reg : Addr2Reg) (before : Text) (quiet : search "INFO:write".toList before = false)
    (w : RegWrite) :
    wlogLine addr2reg (WLogLine.write before quiet w).text = some (addr2reg.add w.val.toNat w.reg.toNat) := by
  have pattern : "INFO:write".toList = 'I' :: "NFO:write".toList := rfl
  have found : findFrom "INFO:write".toList (before.dropWhile isSpace ++ w.info) = some w.info := by
    rw [RegWrite.info, infoLine_eq, pattern]
    exact findFrom_append _ (by decide) (pattern ▸ search_dropWhile quiet)
  simp only [wlogLine, WLogLine.text, strip_info, found, info_fields]
  simp [pyInt_hexval]

theorem wlogLine_other (addr2reg : Addr2Reg) (text : Text) (quiet : search "INFO:write".toList text = false) :
    wlogLine addr2reg (WLogLine.other text quiet).text = some addr2reg := by
  rw [wlogLine, WLogLine.text, findFrom_eq_none (search_strip quiet)]

theorem hexval_blankless (value : Nat) : ∀ char ∈ hexval value, isBlank char = false :=
  forall_hexval rfl (by decide)

/-- The fields of a line that end with those of a hypercall; the first one may have something before it. -/
theorem trace_fields (before : Text) (call : Hypercall) :
    ∃ earlier, (before ++ call.trace).splitOnP isBlank = earlier ++
      [hexval call.a0.toNat, "a1".toList, hexval call.a1.toNat, "a2".toList, hexval call.a2.toNat, "a3".toList,
        hexval call.a3.toNat] := by
  have blank : isBlank ' ' = true := rfl
  have shape : ∀ nr a0 a1 a2 a3, ∃ start, before ++ traceLine nr a0 a1 a2 a3 = start ++ ' ' ::
      (a0 ++ ' ' :: ("a1".toList ++ ' ' :: (a1 ++ ' ' :: ("a2".toList ++ ' ' :: (a2 ++ ' ' ::
        ("a3".toList ++ ' ' :: a3)))))) := by
    intro nr a0 a1 a2 a3
    refine ⟨before ++ "kvm_hypercall: nr ".toList ++ nr ++ " a0".toList, ?_⟩
    unfold traceLine
    simp
  obtain ⟨start, shape⟩ := shape (hexval call.nr.toNat) (hexval call.a0.toNat) (hexval call.a1.toNat)
    (hexval call.a2.toNat) (hexval call.a3.toNat)
  refine ⟨start.splitOnP isBlank, ?_⟩
  rw [Hypercall.trace, shape, List.splitOnP_append_cons _ _ blank, split_field _ blank (hexval_blankless _),
    split_field _ blank (forall_of_any rfl), split_field _ blank (hexval_blankless _), split_field _ blank (forall_of_any rfl),
    split_field _ blank (hexval_blankless _), split_field _ blank (forall_of_any rfl),
    List.splitOnP_eq_singleton (hexval_blankless _)]

theorem strip_trace (before : Text) (call : Hypercall) :
    strip (before ++ call.trace ++ ['\n']) = before.dropWhile isSpace ++ call.trace := by
  have shape : ∀ nr a0 a1 a2 a3, traceLine nr a0 a1 a2 a3 = 'k' :: ("vm_hypercall: nr ".toList ++ nr ++
      " a0 ".toList ++ a0 ++ " a1 ".toList ++ a1 ++ " a2 ".toList ++ a2 ++ " a3 ".toList) ++ a3 := by
    intro nr a0 a1 a2 a3
    unfold traceLine
    simp
  rw [Hypercall.trace, shape]
  exact strip_line rfl

theorem search_trace (before : Text) (call : Hypercall) :
    search "kvm_hypercall: nr".toList (before ++ call.trace) = true := by
  have shape : ∀ nr a0 a1 a2 a3, before ++ traceLine nr a0 a1 a2 a3 = before ++ "kvm_hypercall: nr".toList ++
      (" ".toList ++ nr ++ " a0 ".toList ++ a0 ++ " a1 ".toList ++ a1 ++ " a2 ".toList ++ a2 ++ " a3 ".toList ++ a3) := by
    intro nr a0 a1 a2 a3
    unfold traceLine
    simp
  rw [Hypercall.trace, shape]
  exact search_append _ before _

def asPair (allocation : UInt64 × UInt64) : Int × Int := (allocation.1.toNat, allocation.2.toNat)

theorem klogLine_call (dmaaddrs : List (Int × Int)) (before : Text) (call : Hypercall) :
    klogLine dmaaddrs (KLogLine.call before call).text = some (dmaaddrs ++ (call.allocation?.map asPair).toList) := by
  have zero : "0x0".toList = hexval 0 := rfl
  have one : "0x1".toList = hexval 1 := rfl
  obtain ⟨earlier, fields⟩ := trace_fields (before.dropWhile isSpace) call
  simp only [klogLine, KLogLine.text, strip_trace, search_trace, if_true, fields, List.reverse_append, zero, one]
  simp only [List.reverse_cons, List.reverse_nil, List.nil_append, List.cons_append, List.getElem?_cons_zero,
    List.getElem?_cons_succ, Option.bind_eq_bind, Option.bind_some, hexval_inj, pyInt_hexval]
  by_cases nowhere : call.a3.toNat = 0
  · have : call.a3 = 0 := UInt64.toNat_inj.mp nowhere
    simp [Hypercall.allocation?, this]
  · have placed : call.a3 ≠ 0 := fun zero => nowhere (by rw [zero]; rfl)
    by_cases alloc : call.a0.toNat = 1
    · have : call.a0 = 1 := UInt64.toNat_inj.mp alloc
      simp [nowhere, placed, this, Hypercall.allocation?, asPair]
    · have : call.a0 ≠ 1 := fun one => alloc (by rw [one]; rfl)
      simp [nowhere, alloc, this, Hypercall.allocation?]

theorem klogLine_other (dmaaddrs : List (Int × Int)) (text : Text)
    (quiet : search "kvm_hypercall: nr".toList text = false) :
    klogLine dmaaddrs (KLogLine.other text quiet).text = some dmaaddrs := by
  rw [klogLine, KLogLine.text, search_strip quiet]
  rfl

/-! ## The tables -/

/-- What `analyze` is given: the lines of both logs. -/
structure Logs where
  wlog : List WLogLine
  klog : List KLogLine

namespace Logs

variable (logs : Logs)

def writes : List RegWrite := logs.wlog.filterMap WLogLine.write?

def allocations : List (UInt64 × UInt64) := logs.klog.filterMap KLogLine.allocation?

def analyze (order : SetOrder) : Option Text :=
  Profile.analyze order (logs.wlog.map WLogLine.text) (logs.klog.map KLogLine.text)

end Logs

theorem foldlM_wlogLine (wlog : List WLogLine) (addr2reg : Addr2Reg) :
    (wlog.map WLogLine.text).foldlM wlogLine addr2reg =
      some ((wlog.filterMap WLogLine.write?).foldl (fun addr2reg w => addr2reg.add w.val.toNat w.reg.toNat) addr2reg) := by
  induction wlog generalizing addr2reg with
  | nil => rfl
  | cons line wlog ih =>
    rw [List.map_cons, List.foldlM_cons]
    cases line with
    | write before quiet w =>
      rw [wlogLine_write]
      exact ih _
    | other text quiet =>
      rw [wlogLine_other]
      exact ih _

theorem foldlM_klogLine (klog : List KLogLine) (dmaaddrs : List (Int × Int)) :
    (klog.map KLogLine.text).foldlM klogLine dmaaddrs = some (dmaaddrs ++ (klog.filterMap KLogLine.allocation?).map asPair) := by
  induction klog generalizing dmaaddrs with
  | nil => simp
  | cons line klog ih =>
    rw [List.map_cons, List.foldlM_cons]
    cases line with
    | call before call =>
      rw [klogLine_call]
      refine (ih _).trans ?_
      cases found : call.allocation? <;> simp [KLogLine.allocation?, found]
    | other text quiet =>
      rw [klogLine_other]
      exact ih _

/-- The registers that a value has been written to, in the order of the first such writes. -/
def regsAt (log : List RegWrite) (val : Int) : List Int :=
  log.foldl (fun regs w => if (w.val.toNat : Int) = val then insertReg w.reg.toNat regs else regs) []

/-- `all_regs[0]` for a value of the log. -/
def reported (order : SetOrder) (log : List RegWrite) (val : Int) : Option Int := (order.iterate (regsAt log val)).head?

theorem mem_insertReg {reg other : Int} {regs : List Int} : other ∈ insertReg reg regs ↔ other ∈ regs ∨ other = reg := by
  unfold insertReg
  split_ifs with present
  · constructor
    · exact .inl
    · rintro (member | rfl)
      · exact member
      · exact present
  · simp

theorem regsAt_concat (log : List RegWrite) (w : RegWrite) (val : Int) :
    regsAt (log ++ [w]) val =
      if (w.val.toNat : Int) = val then insertReg w.reg.toNat (regsAt log val) else regsAt log val :=
  List.foldl_append

theorem mem_regsAt {log : List RegWrite} {val reg : Int} :
    reg ∈ regsAt log val ↔ ∃ w ∈ log, (w.val.toNat : Int) = val ∧ (w.reg.toNat : Int) = reg := by
  induction log using List.reverseRecOn with
  | nil => simp [regsAt]
  | append_singleton log w ih =>
    rw [regsAt_concat]
    simp only [List.mem_append, List.mem_singleton, or_and_right, exists_or, exists_eq_left]
    split_ifs with here
    · simp [mem_insertReg, ih, here, eq_comm]
    · simp [ih, here]

/-- The dictionary holds the values of the log, each with its registers. -/
structure Tabulates (addr2reg : Addr2Reg) (log : List RegWrite) : Prop where
  regs : ∀ val, addr2reg.regs val = regsAt log val
  keys : ∀ val, val ∈ addr2reg.keys ↔ regsAt log val ≠ []

theorem Addr2Reg.regs_add (addr2reg : Addr2Reg) (val reg key : Int) :
    (addr2reg.add val reg).regs key =
      if val = key then if val ∈ addr2reg.keys then insertReg reg (addr2reg.regs val) else [reg]
      else addr2reg.regs key := by
  unfold Addr2Reg.add
  by_cases here : val = key
  · subst here
    rw [if_pos rfl]
    split_ifs <;> simp
  · rw [if_neg here]
    split_ifs <;> simp [Function.update_of_ne (Ne.symm here)]

theorem Addr2Reg.mem_keys_add {addr2reg : Addr2Reg} {val reg key : Int} :
    key ∈ (addr2reg.add val reg).keys ↔ key ∈ addr2reg.keys ∨ val = key := by
  unfold Addr2Reg.add
  split_ifs with present
  · refine (or_iff_left_of_imp ?_).symm
    rintro rfl
    exact present
  · simp [eq_comm]

theorem Tabulates.add {addr2reg : Addr2Reg} {log : List RegWrite} (tabulates : Tabulates addr2reg log) (w : RegWrite) :
    Tabulates (addr2reg.add w.val.toNat w.reg.toNat) (log ++ [w]) := by
  constructor
  · intro val
    rw [regsAt_concat, Addr2Reg.regs_add]
    split_ifs with here present
    · rw [tabulates.regs, here]
    · have none : regsAt log val = [] := here ▸ not_not.mp ((tabulates.keys _).not.mp present)
      rw [none]
      rfl
    · exact tabulates.regs val
  · intro val
    rw [regsAt_concat, Addr2Reg.mem_keys_add, tabulates.keys]
    split_ifs with here
    · refine iff_of_true (.inr here) fun empty => ?_
      exact absurd (mem_insertReg.mpr (.inr rfl)) (empty ▸ List.not_mem_nil)
    · exact or_iff_left here

theorem tabulates_log (log : List RegWrite) :
    Tabulates (log.foldl (fun addr2reg w => addr2reg.add w.val.toNat w.reg.toNat) ⟨[], fun _ => []⟩) log := by
  induction log using List.reverseRecOn with
  | nil => exact ⟨fun _ => rfl, fun _ => by simp [regsAt]⟩
  | append_singleton log w ih =>
    rw [List.foldl_append]
    exact ih.add w

/-! ## The code -/

theorem mapM_of_forall {α β : Type} {f : α → Option β} {g : α → β} {l : List α} (each : ∀ a ∈ l, f a = some (g a)) :
    l.mapM f = some (l.map g) := by
  induction l with
  | nil => rfl
  | cons a l ih =>
    rw [List.mapM_cons, each a List.mem_cons_self, ih fun b member => each b (List.mem_cons_of_mem a member)]
    rfl

theorem mem_of_reported {order : SetOrder} {log : List RegWrite} {val reg : Int}
    (first : reported order log val = some reg) : reg ∈ regsAt log val :=
  (order.perm (regsAt log val)).mem_iff.mp (List.mem_of_head? first)

theorem reported_of_ne_nil (order : SetOrder) {log : List RegWrite} {val : Int} (known : regsAt log val ≠ []) :
    ∃ reg, reported order log val = some reg := by
  have iterated : order.iterate (regsAt log val) ≠ [] := by
    intro empty
    have same := order.perm (regsAt log val)
    rw [empty, List.nil_perm] at same
    exact known same
  exact ⟨_, List.head?_eq_some_head iterated⟩

/-- The loops report something for every value of the log, so that nothing fails. -/
theorem emitRegs_eq (order : SetOrder) (setter : Setter) (hit : Int → Int → Bool) {addr2reg : Addr2Reg}
    {log : List RegWrite} (tabulates : Tabulates addr2reg log) (pairs : List (Int × Int)) :
    ∃ statements, emitRegs order setter hit addr2reg pairs = some statements ∧
      ∀ s, s ∈ statements ↔ s.setter = setter ∧ ∃ pair ∈ pairs, s.sz = pair.2 ∧
        ∃ val, hit pair.1 val = true ∧ reported order log val = some s.reg := by
  have first : ∀ val ∈ addr2reg.keys, ∃ reg, reported order log val = some reg :=
    fun val key => reported_of_ne_nil order ((tabulates.keys val).mp key)
  choose! reg found using first
  refine ⟨_, mapM_of_forall (g := fun found => ⟨setter, reg found.1, found.2⟩) ?_, ?_⟩
  · intro entry member
    obtain ⟨pair, _, selected⟩ := List.mem_flatMap.mp member
    obtain ⟨val, key, rfl⟩ := List.mem_map.mp selected
    rw [tabulates.regs, ← reported, found val (List.mem_filter.mp key).1]
    rfl
  · intro s
    simp only [List.mem_map, List.mem_flatMap, List.mem_filter]
    constructor
    · rintro ⟨_, ⟨pair, member, val, ⟨key, hits⟩, rfl⟩, rfl⟩
      exact ⟨rfl, pair, member, rfl, val, hits, found val key⟩
    · rintro ⟨set, pair, member, size, val, hits, first⟩
      have key : val ∈ addr2reg.keys := (tabulates.keys val).mpr (List.ne_nil_of_mem (mem_of_reported first))
      have same : reg val = s.reg := Option.some.inj ((found val key).symm.trans first)
      refine ⟨_, ⟨pair, member, val, ⟨key, hits⟩, rfl⟩, ?_⟩
      rw [same, ← set, ← size]

/-! ### Lines -/

def isNewline (char : Char) : Bool := char == '\n'

def isBracket (char : Char) : Bool := char == '(' || char == ',' || char == ')'

theorem forall_hex {P : Char → Prop} (minus : P '-') (ex : P 'x') (digits : ∀ digit < 16, P (Nat.digitChar digit))
    (value : Int) : ∀ char ∈ hex value, P char := by
  unfold hex
  split_ifs
  · exact forall_hexval ex digits
  · exact List.forall_mem_cons.mpr ⟨minus, forall_hexval ex digits⟩

theorem hex_inj {value other : Int} (same : hex value = hex other) : value = other := by
  unfold hex at same
  split_ifs at same with first second second
  · have := hexval_inj.mp same
    omega
  · simp [hexval] at same
  · simp [hexval] at same
  · have := hexval_inj.mp (List.cons.inj same).2
    omega

theorem line_eq (name reg sz : Text) :
    "model->".toList ++ name ++ "(".toList ++ reg ++ ", ".toList ++ sz ++ ");".toList =
      ("model->".toList ++ name) ++ '(' :: (reg ++ ',' :: ((' ' :: sz) ++ ')' :: ";".toList)) := by
  simp

theorem line_fields (s : Statement) :
    s.line.splitOnP isBracket = ["model->".toList ++ s.setter.name, hex s.reg, ' ' :: hex s.sz, ";".toList] := by
  have name : ∀ char ∈ "model->".toList ++ s.setter.name, isBracket char = false := by
    cases s.setter <;> exact forall_of_any rfl
  have number : ∀ value, ∀ char ∈ hex value, isBracket char = false := forall_hex rfl rfl (by decide)
  have bracket : isBracket '(' = true ∧ isBracket ',' = true ∧ isBracket ')' = true := ⟨rfl, rfl, rfl⟩
  have size : ∀ char ∈ ' ' :: hex s.sz, isBracket char = false := List.forall_mem_cons.mpr ⟨rfl, number _⟩
  have semicolon : ∀ char ∈ ";".toList, isBracket char = false := forall_of_any rfl
  unfold Statement.line
  rw [line_eq, split_field _ bracket.1 name, split_field _ bracket.2.1 (number _),
    split_field _ bracket.2.2 size, List.splitOnP_eq_singleton semicolon]

theorem line_inj {s s' : Statement} (same : s.line = s'.line) : s = s' := by
  have fields := line_fields s
  rw [same, line_fields s'] at fields
  simp only [List.cons.injEq, List.append_cancel_left_eq, true_and, and_true] at fields
  obtain ⟨name, reg, sz⟩ := fields
  have setter : s'.setter = s.setter := by
    revert name
    cases s'.setter <;> cases s.setter <;> decide
  cases s with
  | mk _ _ _ =>
    cases s' with
    | mk _ _ _ =>
      simp only at setter reg sz
      rw [setter, hex_inj reg, hex_inj sz]

theorem line_newlineless (s : Statement) : ∀ char ∈ s.line, isNewline char = false := by
  have number : ∀ value, ∀ char ∈ hex value, isNewline char = false := forall_hex rfl rfl (by decide)
  have name : ∀ char ∈ s.setter.name, isNewline char = false := by
    cases s.setter <;> exact forall_of_any rfl
  unfold Statement.line
  simp only [List.forall_mem_append]
  exact ⟨⟨⟨⟨⟨⟨forall_of_any rfl, name⟩, forall_of_any rfl⟩, number _⟩, forall_of_any rfl⟩, number _⟩, forall_of_any rfl⟩

theorem code_lines (statements : List Statement) :
    (code statements).splitOnP isNewline = statements.map Statement.line ++ [[]] := by
  induction statements with
  | nil => rfl
  | cons s statements ih =>
    have first : code (s :: statements) = s.line ++ '\n' :: code statements := by simp [code]
    rw [first, split_field _ rfl (line_newlineless s), ih]
    rfl

/-! ## Which registers are reported -/

/-- The line `model->setDMAReg(reg, sz);` is a line of the code. -/
def Emits (code : Text) (reg sz : Int) : Prop := (Statement.mk .setDMAReg reg sz).line ∈ code.splitOnP isNewline

theorem emits_code {statements : List Statement} {reg sz : Int} :
    Emits (code statements) reg sz ↔ ⟨.setDMAReg, reg, sz⟩ ∈ statements := by
  have visible : ∀ s : Statement, s.line ≠ [] := by
    intro s empty
    have fields := line_fields s
    rw [empty] at fields
    cases fields
  simp only [Emits, code_lines, List.mem_append, List.mem_singleton, visible, or_false]
  exact List.mem_map_of_injective fun _ _ => line_inj

/-- `addr <= val < addr + 4096` -/
def inFirstPage (allocation : UInt64 × UInt64) (val : Int) : Prop :=
  allocation.1.toNat ≤ val ∧ val < allocation.1.toNat + 4096

theorem Logs.analyze_emits (logs : Logs) (order : SetOrder) :
    ∃ code, logs.analyze order = some code ∧ ∀ reg sz, Emits code reg sz ↔
      ∃ allocation ∈ logs.allocations, allocation.2.toNat = sz ∧
        ∃ val, inFirstPage allocation val ∧ reported order logs.writes val = some reg := by
  have tabulates := tabulates_log logs.writes
  have windows : ∀ allocation val, ((asPair allocation).1 ≤ val ∧ val - (asPair allocation).1 < 4096) ↔
      inFirstPage allocation val := by
    intro allocation val
    unfold asPair inFirstPage
    omega
  obtain ⟨regs, regsEq, regsMem⟩ := emitRegs_eq order .setDMAReg (fun a k => a ≤ k && k - a < 4096) tabulates
    (logs.allocations.map asPair)
  obtain ⟨top, topEq, topMem⟩ := emitRegs_eq order .setDMATopHalfReg (fun a k => a == k) tabulates
    ((logs.allocations.map asPair).map fun pair => (pair.1 / 65536, pair.2))
  obtain ⟨bottom, bottomEq, bottomMem⟩ := emitRegs_eq order .setDMABottomHalfReg (fun a k => a == k) tabulates
    ((logs.allocations.map asPair).map fun pair => (pair.1 % 65536, pair.2))
  refine ⟨code (regs ++ top ++ bottom), ?_, fun reg sz => ?_⟩
  · have wlogEq := foldlM_wlogLine logs.wlog ⟨[], fun _ => []⟩
    have klogEq : (logs.klog.map KLogLine.text).foldlM klogLine [] = some (logs.allocations.map asPair) :=
      foldlM_klogLine logs.klog []
    rw [← Logs.writes] at wlogEq
    simp only [Logs.analyze, Profile.analyze, wlogEq, klogEq, Option.bind_eq_bind, Option.bind_some, emitDMARegs,
      emitTopHalfRegs, emitBottomHalfRegs, regsEq, topEq, bottomEq]
  · -- the two other loops call other functions
    simp only [emits_code, List.mem_append, regsMem, topMem, bottomMem, reduceCtorEq, false_and, or_false, true_and,
      List.mem_map, exists_exists_and_eq_and, Bool.and_eq_true, decide_eq_true_eq, windows]
    simp only [asPair, eq_comm]

/-- The registers that are reported, with their sizes, are those that have been given an address in the
    first page of an allocation. -/
def Logs.ExactIn (logs : Logs) (order : SetOrder) : Prop :=
  ∃ code, logs.analyze order = some code ∧ ∀ reg sz, Emits code reg sz ↔
    ∃ w ∈ logs.writes, ∃ allocation ∈ logs.allocations,
      (w.reg.toNat : Int) = reg ∧ allocation.2.toNat = sz ∧ inFirstPage allocation w.val.toNat

/-- They are, in whatever order Python walks through a set. -/
def Logs.Exact (logs : Logs) : Prop := ∀ order, logs.ExactIn order

/-- Some write of the register, into the first page of an allocation of that size, has a value that no other register
    is given. -/
def Logs.Alone (logs : Logs) (reg sz : UInt64) : Prop :=
  ∃ w ∈ logs.writes, ∃ allocation ∈ logs.allocations,
    w.reg = reg ∧ allocation.2 = sz ∧ inFirstPage allocation w.val.toNat ∧
      ∀ other ∈ logs.writes, other.val = w.val → other.reg = reg

/-- What is reported is right; only a register may be missing. -/
theorem Logs.exactIn_iff (logs : Logs) (order : SetOrder) :
    logs.ExactIn order ↔ ∀ w ∈ logs.writes, ∀ allocation ∈ logs.allocations, inFirstPage allocation w.val.toNat →
      ∃ other ∈ logs.allocations, other.2 = allocation.2 ∧
        ∃ val, inFirstPage other val ∧ reported order logs.writes val = some (w.reg.toNat : Int) := by
  obtain ⟨code, analyzed, emits⟩ := logs.analyze_emits order
  have exact_code : logs.ExactIn order ↔ ∀ reg sz, Emits code reg sz ↔ ∃ w ∈ logs.writes,
      ∃ allocation ∈ logs.allocations, (w.reg.toNat : Int) = reg ∧ allocation.2.toNat = sz ∧
        inFirstPage allocation w.val.toNat := by
    simp [Logs.ExactIn, analyzed]
  rw [exact_code]
  constructor
  · intro exact w written allocation allocated inside
    obtain ⟨other, member, size, found⟩ :=
      (emits _ _).mp ((exact _ _).mpr ⟨w, written, allocation, allocated, rfl, rfl, inside⟩)
    exact ⟨other, member, UInt64.toNat_inj.mp (by omega), found⟩
  · intro represented reg sz
    rw [emits]
    constructor
    · rintro ⟨allocation, allocated, size, val, inside, first⟩
      obtain ⟨w, written, rfl, same⟩ := mem_regsAt.mp (mem_of_reported first)
      exact ⟨w, written, allocation, allocated, same, size, inside⟩
    · rintro ⟨w, written, allocation, allocated, rfl, rfl, inside⟩
      obtain ⟨other, member, size, found⟩ := represented w written allocation allocated inside
      exact ⟨other, member, by rw [size], found⟩

/-! ### The order of a set -/

/-- The order that comes to `reg` last. -/
def SetOrder.last (reg : Int) : SetOrder where
  iterate regs := regs.filter (· ≠ reg) ++ regs.filter (· = reg)
  perm regs := by
    have parts := List.filter_append_perm (fun other => decide (other ≠ reg)) regs
    simpa using parts

/-- In that order a register is reported only for values of its own. -/
theorem only_of_reported_last {log : List RegWrite} {val reg : Int}
    (first : reported (.last reg) log val = some reg) : ∀ other ∈ regsAt log val, other = reg := by
  intro other member
  by_contra differs
  have before : other ∈ (regsAt log val).filter (· ≠ reg) := List.mem_filter.mpr ⟨member, decide_eq_true differs⟩
  obtain ⟨head, rest, shape⟩ := List.exists_cons_of_ne_nil (List.ne_nil_of_mem before)
  have late : head ≠ reg := by
    have kept : head ∈ (regsAt log val).filter (· ≠ reg) := by
      rw [shape]
      exact List.mem_cons_self
    exact of_decide_eq_true (List.mem_filter.mp kept).2
  have walked : (SetOrder.last reg).iterate (regsAt log val)
      = head :: (rest ++ (regsAt log val).filter (· = reg)) := by
    rw [← List.cons_append, ← shape]
    rfl
  rw [reported, walked] at first
  exact late (Option.some.inj first)

/-- A value that only one register is given is reported for that register, in every order. -/
theorem reported_of_only (order : SetOrder) {log : List RegWrite} {w : RegWrite} (written : w ∈ log)
    (only : ∀ other ∈ log, other.val = w.val → other.reg = w.reg) :
    reported order log w.val.toNat = some (w.reg.toNat : Int) := by
  have known : regsAt log w.val.toNat ≠ [] := List.ne_nil_of_mem (mem_regsAt.mpr ⟨w, written, rfl, rfl⟩)
  obtain ⟨reg, first⟩ := reported_of_ne_nil order known
  obtain ⟨other, member, value, rfl⟩ := mem_regsAt.mp (mem_of_reported first)
  rw [first, only other member (UInt64.toNat_inj.mp (Int.ofNat.inj value))]

theorem Logs.exact_of_alone {logs : Logs} (alone : ∀ w ∈ logs.writes, ∀ allocation ∈ logs.allocations,
    inFirstPage allocation w.val.toNat → logs.Alone w.reg allocation.2) : logs.Exact := by
  intro order
  rw [logs.exactIn_iff]
  intro w written allocation allocated inside
  obtain ⟨w', written', other, allocated', same, size, inside', only⟩ := alone w written allocation allocated inside
  refine ⟨other, allocated', size, _, inside', ?_⟩
  rw [← same] at only ⊢
  exact reported_of_only order written' only

/-- The order that puts off a register reports it for a value of its own. -/
theorem Logs.Exact.alone {logs : Logs} (exact : logs.Exact) {w : RegWrite} (written : w ∈ logs.writes)
    {allocation : UInt64 × UInt64} (allocated : allocation ∈ logs.allocations)
    (inside : inFirstPage allocation w.val.toNat) : logs.Alone w.reg allocation.2 := by
  obtain ⟨other, allocated', size, val, inside', first⟩ :=
    (logs.exactIn_iff (.last w.reg.toNat)).mp (exact _) w written allocation allocated inside
  obtain ⟨w', written', rfl, same⟩ := mem_regsAt.mp (mem_of_reported first)
  refine ⟨w', written', other, allocated', UInt64.toNat_inj.mp (Int.ofNat.inj same), size, inside', ?_⟩
  intro another member value
  have listed := only_of_reported_last first _ (mem_regsAt.mpr ⟨another, member, by rw [value], rfl⟩)
  exact UInt64.toNat_inj.mp (Int.ofNat.inj listed)

/-- The registers are found in every order of the sets exactly when each of them is alone with one of its values in
    allocations of that size; this is so when no value is written to two registers. -/
theorem Logs.exact_iff (logs : Logs) :
    (logs.Exact ↔ ∀ w ∈ logs.writes, ∀ allocation ∈ logs.allocations, inFirstPage allocation w.val.toNat →
      logs.Alone w.reg allocation.2) ∧
    ((∀ w ∈ logs.writes, ∀ other ∈ logs.writes, other.val = w.val → other.reg = w.reg) → logs.Exact) := by
  constructor
  · exact ⟨fun exact _ written _ allocated inside => exact.alone written allocated inside, Logs.exact_of_alone⟩
  · intro single
    apply Logs.exact_of_alone
    intro w written allocation allocated inside
    exact ⟨w, written, allocation, allocated, rfl, rfl, inside, single w written⟩

/-- Two registers are given the address of one allocation. -/
def twoRegisters : Logs where
  wlog := [.write [] rfl ⟨4, 0, 0x10, 0x1000⟩, .write [] rfl ⟨4, 0, 0x20, 0x1000⟩]
  klog := [.call [] ⟨0, 1, 2, 64, 0x1000⟩]

/-- Whatever the order of the set is, one of the registers is missing. -/
theorem not_exact_twoRegisters : ¬ ∃ order, twoRegisters.ExactIn order := by
  rintro ⟨order, code, analyzed, exact⟩
  obtain ⟨code', analyzed', emits⟩ := twoRegisters.analyze_emits order
  obtain rfl : code = code' := Option.some.inj (analyzed.symm.trans analyzed')
  have only : ∀ reg, Emits code reg 64 → reported order twoRegisters.writes 0x1000 = some reg := by
    intro reg emitted
    obtain ⟨_, _, _, val, _, first⟩ := (emits _ _).mp emitted
    obtain ⟨w, written, rfl, _⟩ := mem_regsAt.mp (mem_of_reported first)
    have value : w.val = 0x1000 := by
      cases List.mem_cons.mp written with
      | inl here => rw [here]
      | inr later => rw [List.mem_singleton.mp later]
    rw [value] at first
    exact first
  have window : inFirstPage (0x1000, 64) 0x1000 := by
    unfold inFirstPage
    decide
  have first := only 0x10 ((exact _ _).mpr ⟨⟨4, 0, 0x10, 0x1000⟩, by simp [twoRegisters, Logs.writes, WLogLine.write?],
    (0x1000, 64), by simp [twoRegisters, Logs.allocations, KLogLine.allocation?, Hypercall.allocation?], rfl, rfl, window⟩)
  have second := only 0x20 ((exact _ _).mpr ⟨⟨4, 0, 0x20, 0x1000⟩, by simp [twoRegisters, Logs.writes, WLogLine.write?],
    (0x1000, 64), by simp [twoRegisters, Logs.allocations, KLogLine.allocation?, Hypercall.allocation?], rfl, rfl, window⟩)
  exact absurd (Option.some.inj (first.symm.trans second)) (by decide)

end DevFuzz.Profile
