import DevFuzz.Lib.Scan
import Mathlib.Logic.Function.Basic

/-! # Coverage by nesting depth

`parse_gcov_with_depth` of `analyze-coverage.py` reads what `gcov -b` prints for a driver and counts the
executable lines and the branches by the depth of the braces around them.  A record starts with a count.  The
pattern for it knows `-`, `#####` and plain numbers.  A record with `=====`, or with the `*` of
a line that has unexecuted blocks, is passed over, and the branches behind it are counted where the record before
stands.  `countsAll_iff` says for which files the tables are right.
-/

namespace DevFuzz.Coverage

open DevFuzz.Lib.Strings DevFuzz.Lib.Scan

/-! ## The script -/

/-- `depth` after a line of the source. -/
def braceDepth (depth : Nat) (line : Text) : Nat :=
  (strip line).foldl (fun depth ch => if ch = '\x7b' then depth + 1 else if ch = '\x7d' then depth - 1 else depth) depth

def lineDepths : Nat → List Text → List Nat
  | _, [] => []
  | depth, line :: lines => braceDepth depth line :: lineDepths (braceDepth depth line) lines

/-- `max(0, line_depth.get(lineno, 0) - 1)`; the lines are numbered from 1 on. -/
def depthOf (source : List Text) : Nat → Nat
  | 0 => 0
  | n + 1 => (lineDepths 0 source).getD n 0 - 1

/-- `#####` -/
def hashes : Text := List.replicate 5 '#'

def branchWord : Text := "branch".toList

def takenWord : Text := "taken".toList

def neverExecutedWord : Text := "never executed".toList

/-- `(\d+|#####|-)` -/
def matchCount (text : Text) : Option (Text × Text) :=
  (many1 Char.isDigit text).or
    (((literal hashes text).map (hashes, ·)).or ((literal ['-'] text).map (['-'], ·)))

/-- `\s*(\d+|#####|-)\s*:\s*(\d+):`, with the second group as a number. -/
def matchRecord (line : Text) : Option (Text × Nat) := do
  let (count, rest) ← matchCount (many isSpace line)
  let rest ← literal [':'] (many isSpace rest)
  let (lineno, rest) ← many1 Char.isDigit (many isSpace rest)
  let _ ← literal [':'] rest
  pure (count, ← readDigits 10 lineno)

/-- `taken\s+(\d+)%`, with the group as a number. -/
def matchTaken (text : Text) : Option Nat := do
  let rest ← literal takenWord text
  let (_, rest) ← many1 isSpace rest
  let (pct, rest) ← many1 Char.isDigit rest
  let _ ← literal ['%'] rest
  readDigits 10 pct

/-- `branch\s+\d+\s+(taken\s+(\d+)%|never executed)`, with the percentage in the first case. -/
def matchBranch (line : Text) : Option (Option Nat) := do
  let rest ← literal branchWord line
  let (_, rest) ← many1 isSpace rest
  let (_, rest) ← many1 Char.isDigit rest
  let (_, rest) ← many1 isSpace rest
  ((matchTaken rest).map some).or ((literal neverExecutedWord rest).map fun _ => none)

@[ext]
structure BranchStats where
  total : Nat
  taken : Nat
  executed : Nat

@[ext]
structure LineStats where
  total : Nat
  covered : Nat

structure Parse where
  branchesByDepth : Nat → BranchStats
  linesByDepth : Nat → LineStats
  currentLineno : Nat

def LineStats.count (stats : LineStats) (countStr : Text) : LineStats :=
  if countStr = ['-'] ∨ countStr = ['0'] then stats
  else if countStr = hashes then { stats with total := stats.total + 1 }
  else ⟨stats.total + 1, stats.covered + 1⟩

def BranchStats.count (stats : BranchStats) : Option Nat → BranchStats
  | none => { stats with total := stats.total + 1 }
  | some pct => ⟨stats.total + 1, if pct > 0 then stats.taken + 1 else stats.taken, stats.executed + 1⟩

variable (source : List Text)

def Parse.atRecord (s : Parse) (line : Text) : Parse :=
  match matchRecord line with
  | none => s
  | some (countStr, lineno) =>
    let d := depthOf source lineno
    { s with currentLineno := lineno, linesByDepth := Function.update s.linesByDepth d ((s.linesByDepth d).count countStr) }

def Parse.atBranch (s : Parse) (line : Text) : Parse :=
  match matchBranch line with
  | none => s
  | some pct =>
    let d := depthOf source s.currentLineno
    { s with branchesByDepth := Function.update s.branchesByDepth d ((s.branchesByDepth d).count pct) }

/-- The body of the loop over the lines of the report. -/
def Parse.line (s : Parse) (line : Text) : Parse := (s.atRecord source line).atBranch source line

def Parse.start : Parse := ⟨fun _ => ⟨0, 0, 0⟩, fun _ => ⟨0, 0⟩, 0⟩

def parseGcovWithDepth (gcov : List Text) : (Nat → BranchStats) × (Nat → LineStats) :=
  let s := gcov.foldl (Parse.line source) .start
  (s.branchesByDepth, s.linesByDepth)

/-! ## The report -/

/-- The count of a record. -/
inductive Count where
  | notExecutable
  | unexecuted
  | exceptional
  | executed (times : { n : Nat // 0 < n }) (unexecutedBlock : Bool)

def Count.text : Count → Text
  | notExecutable => ['-']
  | unexecuted => hashes
  | exceptional => List.replicate 5 '='
  | executed times unexecutedBlock => decimal times.1 ++ if unexecutedBlock then ['*'] else []

def Count.isExecutable : Count → Bool
  | notExecutable => false
  | unexecuted | exceptional | executed _ _ => true

def Count.isNumber : Count → Bool
  | executed _ _ => true
  | notExecutable | unexecuted | exceptional => false

/-- `<count>:<lineno>:<source>`, with blanks before the two numbers. -/
structure Record where
  width : Nat
  count : Count
  linenoWidth : Nat
  lineno : Nat
  text : Text

/-- What follows the count. -/
def Record.place (r : Record) : Text := List.replicate r.linenoWidth ' ' ++ (decimal r.lineno ++ ':' :: r.text)

def Record.line (r : Record) : Text := List.replicate r.width ' ' ++ (r.count.text ++ ':' :: r.place)

/-- A line behind a record: a branch, with what else is said about it, or one on a call, a function or
    an unconditional jump. -/
inductive Note where
  | taken (width index pct : Nat) (more : Text)
  | neverExecuted (width index : Nat) (more : Text)
  | other (first : { char : Char // char ∈ ['c', 'f', 'u'] }) (more : Text)

def Note.line : Note → Text
  | taken width index pct more =>
    branchWord ++ (List.replicate (width + 1) ' ' ++ (decimal index ++ ([' '] ++ (takenWord ++
      ([' '] ++ (decimal pct ++ '%' :: more))))))
  | neverExecuted width index more =>
    branchWord ++ (List.replicate (width + 1) ' ' ++ (decimal index ++ ([' '] ++ (neverExecutedWord ++ more))))
  | other first more => first.1 :: more

def Note.isBranch : Note → Bool
  | taken _ _ _ _ | neverExecuted _ _ _ => true
  | other _ _ => false

def Note.isExecuted : Note → Bool
  | taken _ _ _ _ => true
  | neverExecuted _ _ _ | other _ _ => false

def Note.isTaken : Note → Bool
  | taken _ _ pct _ => 0 < pct
  | neverExecuted _ _ _ | other _ _ => false

/-- A record and what follows it. -/
structure Annotated where
  record : Record
  notes : List Note

def Annotated.lines (a : Annotated) : List Text := a.record.line :: a.notes.map Note.line

def Annotated.isAt (d : Nat) (a : Annotated) : Bool := depthOf source a.record.lineno = d

/-! ## What the tables should be -/

def recordStats (file : List Annotated) : LineStats where
  total := file.countP fun a => a.record.count.isExecutable
  covered := file.countP fun a => a.record.count.isNumber

def lineStats (file : List Annotated) (d : Nat) : LineStats := recordStats (file.filter (Annotated.isAt source d))

def noteStats (notes : List Note) : BranchStats := ⟨notes.countP Note.isBranch, notes.countP Note.isTaken, notes.countP Note.isExecuted⟩

def branchStats (file : List Annotated) (d : Nat) : BranchStats :=
  noteStats ((file.filter (Annotated.isAt source d)).flatMap Annotated.notes)

/-- Every executable line is counted once, and every branch, at the depth of its line. -/
def CountsAll (file : List Annotated) : Prop :=
  parseGcovWithDepth source (file.flatMap Annotated.lines) = (branchStats source file, lineStats source file)

/-- The pattern knows the count. -/
def Count.isKnown : Count → Bool
  | notExecutable | unexecuted => true
  | exceptional => false
  | executed _ unexecutedBlock => !unexecutedBlock

/-! ## What the patterns match -/

omit source

theorem isSpace_of_mem_replicate {n : Nat} : ∀ char ∈ List.replicate n ' ', isSpace char = true := by
  intro char member
  rw [List.eq_of_mem_replicate member]
  rfl

theorem Count.text_ne_nil (count : Count) : count.text ≠ [] := by
  cases count with
  | notExecutable | unexecuted | exceptional => decide
  | executed times unexecutedBlock => simp [text, decimal_ne_nil]

/-- What digits, and the characters of the other counts, are not. -/
theorem Count.text_forall (count : Count) {kind : Char → Bool} (fixed : ['-', '#', '=', '*'].any kind = false)
    (digits : ∀ value, ∀ char ∈ decimal value, kind char = false) : ∀ char ∈ count.text, kind char = false := by
  have known := forall_of_any fixed
  cases count with
  | notExecutable =>
    intro char member
    rw [List.mem_singleton.mp member]
    exact known '-' (by simp)
  | unexecuted =>
    intro char member
    rw [List.eq_of_mem_replicate member]
    exact known '#' (by simp)
  | exceptional =>
    intro char member
    rw [List.eq_of_mem_replicate member]
    exact known '=' (by simp)
  | executed times unexecutedBlock =>
    intro char member
    rcases List.mem_append.mp member with digit | star
    · exact digits times.1 char digit
    · cases unexecutedBlock with
      | false => cases star
      | true =>
        rw [List.mem_singleton.mp star]
        exact known '*' (by simp)

theorem Count.text_solid (count : Count) : ∀ char ∈ count.text, isSpace char = false :=
  count.text_forall rfl decimal_solid

/-- A record does not start like a branch. -/
theorem Count.text_no_b (count : Count) : ∀ char ∈ count.text, (char == 'b') = false := by
  refine count.text_forall rfl fun value char member => ?_
  have isDigit := decimal_isDigit value char member
  by_contra isB
  rw [Bool.not_eq_false, beq_iff_eq] at isB
  rw [isB] at isDigit
  cases isDigit

/-- A plain count is matched up to the colon. -/
theorem matchCount_known {count : Count} (known : count.isKnown = true) (rest : Text) :
    matchCount (count.text ++ ':' :: rest) = some (count.text, ':' :: rest) := by
  cases count with
  | notExecutable => rfl
  | unexecuted => rfl
  | exceptional => cases known
  | executed times unexecutedBlock =>
    cases unexecutedBlock with
    | true => cases known
    | false =>
      have digits := many1_append (decimal_ne_nil times.1) (decimal_isDigit times.1) (stops_cons _ (by decide) rest : Stops _ (':' :: rest))
      simp only [matchCount, Count.text, Bool.false_eq_true, if_false, List.append_nil, digits, Option.some_or]

/-- The other counts have no match before the colon. -/
theorem matchCount_unknown {count : Count} (unknown : count.isKnown = false) (rest : Text) :
    (matchCount (count.text ++ ':' :: rest)).bind (fun p => literal [':'] (many isSpace p.2)) = none := by
  cases count with
  | notExecutable | unexecuted => cases unknown
  | exceptional => rfl
  | executed times unexecutedBlock =>
    cases unexecutedBlock with
    | false => cases unknown
    | true =>
      have digits := many1_append (decimal_ne_nil times.1) (decimal_isDigit times.1)
        (stops_cons _ (by decide) (':' :: rest) : Stops _ ('*' :: ':' :: rest))
      have text : (Count.executed times true).text ++ ':' :: rest = decimal times.1 ++ '*' :: ':' :: rest := by
        simp [Count.text]
      rw [text, matchCount, digits]
      rfl

theorem many_line (r : Record) : many isSpace r.line = r.count.text ++ ':' :: r.place :=
  many_append isSpace_of_mem_replicate
    (stops_append r.count.text_ne_nil r.count.text_solid _)

theorem matchRecord_known {r : Record} (known : r.count.isKnown = true) :
    matchRecord r.line = some (r.count.text, r.lineno) := by
  have blanks : many isSpace r.place = decimal r.lineno ++ ':' :: r.text :=
    many_append isSpace_of_mem_replicate (stops_append (decimal_ne_nil _) (decimal_solid _) _)
  have digits : many1 Char.isDigit (decimal r.lineno ++ ':' :: r.text) = some (decimal r.lineno, ':' :: r.text) :=
    many1_append (decimal_ne_nil _) (decimal_isDigit _) (stops_cons _ (by decide) _)
  have number : readDigits 10 (decimal r.lineno) = some r.lineno := readDigits_toDigits (by decide) (by decide) _
  have colon (rest : Text) : literal [':'] (many isSpace (':' :: rest)) = some rest := literal_append [':'] rest
  have colon' (rest : Text) : literal [':'] (':' :: rest) = some rest := literal_append [':'] rest
  simp only [matchRecord, many_line, matchCount_known known, colon, colon', blanks, digits, number, Option.bind_eq_bind,
    Option.bind_some, Option.pure_def]

theorem matchRecord_unknown {r : Record} (unknown : r.count.isKnown = false) : matchRecord r.line = none := by
  have fails := matchCount_unknown unknown r.place
  simp only [matchRecord, many_line, Option.bind_eq_bind]
  cases counted : matchCount (r.count.text ++ ':' :: r.place) with
  | none => rfl
  | some p =>
    rw [counted, Option.bind_some] at fails
    simp only [Option.bind_some, fails, Option.bind_none]

theorem matchBranch_line (r : Record) : matchBranch r.line = none := by
  have differs : Stops (· == 'b') r.line := by
    unfold Record.line
    cases r.width with
    | zero => exact stops_append r.count.text_ne_nil r.count.text_no_b _
    | succ n => exact stops_cons _ (by decide) _
  have fails : literal branchWord r.line = none := literal_of_stops rfl differs
  simp only [matchBranch, fails, Option.bind_eq_bind, Option.bind_none]

/-- A line that starts with a letter is no record. -/
theorem matchRecord_letter {char : Char} (letter : char ∈ ['b', 'c', 'f', 'u']) (rest : Text) :
    matchRecord (char :: rest) = none := by
  have notSpace : isSpace char = false := forall_of_any rfl char letter
  have notDigit : char.isDigit = false := forall_of_any rfl char letter
  have hashless : ∀ char ∈ ['b', 'c', 'f', 'u'], (char == '#') = false := forall_of_any rfl
  have dashless : ∀ char ∈ ['b', 'c', 'f', 'u'], (char == '-') = false := forall_of_any rfl
  have hash : literal hashes (char :: rest) = none :=
    literal_of_stops rfl (stops_cons (· == '#') (hashless char letter) rest)
  have dash : literal ['-'] (char :: rest) = none :=
    literal_of_stops rfl (stops_cons (· == '-') (dashless char letter) rest)
  simp only [matchRecord, matchCount, many_of_stops (stops_cons _ notSpace rest), many1_of_stops (stops_cons _ notDigit rest),
    hash, dash, Option.map_none, Option.or_none, Option.bind_eq_bind, Option.bind_none]

theorem matchRecord_note (note : Note) : matchRecord note.line = none := by
  cases note with
  | taken | neverExecuted => exact matchRecord_letter (by decide) _
  | other first more => exact matchRecord_letter (List.mem_cons_of_mem 'b' first.2) more

/-- What a note is matched as. -/
def Note.matched : Note → Option (Option Nat)
  | taken _ _ pct _ => some (some pct)
  | neverExecuted _ _ _ => some none
  | other _ _ => none

/-- The two groups of a branch, up to what is said about it. -/
theorem matchBranch_index (width index : Nat) {rest : Text} (solid : Stops isSpace rest) :
    matchBranch (branchWord ++ (List.replicate (width + 1) ' ' ++ (decimal index ++ ([' '] ++ rest)))) =
      ((matchTaken rest).map some).or ((literal neverExecutedWord rest).map fun _ => none) := by
  have blanks : many1 isSpace (List.replicate (width + 1) ' ' ++ (decimal index ++ ([' '] ++ rest))) =
      some (List.replicate (width + 1) ' ', decimal index ++ ([' '] ++ rest)) :=
    many1_append (by simp) isSpace_of_mem_replicate (stops_append (decimal_ne_nil index) (decimal_solid index) _)
  have digits : many1 Char.isDigit (decimal index ++ ([' '] ++ rest)) = some (decimal index, [' '] ++ rest) :=
    many1_append (decimal_ne_nil index) (decimal_isDigit index) (stops_cons _ (by decide) rest)
  have blank : many1 isSpace ([' '] ++ rest) = some ([' '], rest) :=
    many1_append (by simp) (isSpace_of_mem_replicate (n := 1)) solid
  simp only [matchBranch, literal_append, Option.bind_eq_bind, Option.bind_some, blanks, digits, blank]

theorem matchTaken_text (pct : Nat) (more : Text) :
    matchTaken (takenWord ++ ([' '] ++ (decimal pct ++ '%' :: more))) = some pct := by
  have blank : many1 isSpace ([' '] ++ (decimal pct ++ '%' :: more)) = some ([' '], decimal pct ++ '%' :: more) :=
    many1_append (by simp) (isSpace_of_mem_replicate (n := 1)) (stops_append (decimal_ne_nil pct) (decimal_solid pct) _)
  have digits : many1 Char.isDigit (decimal pct ++ '%' :: more) = some (decimal pct, '%' :: more) :=
    many1_append (decimal_ne_nil pct) (decimal_isDigit pct) (stops_cons _ (by decide) more)
  have percent : literal ['%'] ('%' :: more) = some more := literal_append ['%'] more
  have number : readDigits 10 (decimal pct) = some pct := readDigits_toDigits (by decide) (by decide) pct
  simp only [matchTaken, literal_append, Option.bind_eq_bind, Option.bind_some, blank, digits, percent, number]

theorem matchBranch_note (note : Note) : matchBranch note.line = note.matched := by
  cases note with
  | taken width index pct more =>
    have solid : Stops isSpace (takenWord ++ ([' '] ++ (decimal pct ++ '%' :: more))) :=
      stops_append (by decide) (forall_of_any rfl) _
    rw [Note.line, matchBranch_index width index solid, matchTaken_text]
    rfl
  | neverExecuted width index more =>
    have notTaken : matchTaken (neverExecutedWord ++ more) = none := by
      have fails : literal takenWord (neverExecutedWord ++ more) = none :=
        literal_of_stops rfl (stops_cons (· == 't') (show ('n' == 't') = false by decide) _)
      simp only [matchTaken, fails, Option.bind_eq_bind, Option.bind_none]
    have solid : Stops isSpace (neverExecutedWord ++ more) := stops_cons isSpace (show isSpace 'n' = false by decide) _
    rw [Note.line, matchBranch_index width index solid, notTaken, literal_append]
    rfl
  | other first more =>
    have others : ∀ char ∈ ['c', 'f', 'u'], (char == 'b') = false := forall_of_any rfl
    have fails : literal branchWord (first.1 :: more) = none :=
      literal_of_stops rfl (stops_cons (· == 'b') (others first.1 first.2) more)
    simp only [Note.line, matchBranch, fails, Option.bind_eq_bind, Option.bind_none, Note.matched]

/-! ## Sums of statistics -/

instance instAddLineStats : Add LineStats := ⟨fun a b => ⟨a.total + b.total, a.covered + b.covered⟩⟩

instance instAddBranchStats : Add BranchStats :=
  ⟨fun a b => ⟨a.total + b.total, a.taken + b.taken, a.executed + b.executed⟩⟩

theorem LineStats.add_assoc (a b c : LineStats) : a + b + c = a + (b + c) :=
  LineStats.ext (Nat.add_assoc ..) (Nat.add_assoc ..)

theorem BranchStats.add_assoc (a b c : BranchStats) : a + b + c = a + (b + c) :=
  BranchStats.ext (Nat.add_assoc ..) (Nat.add_assoc ..) (Nat.add_assoc ..)

theorem LineStats.zero_add (a : LineStats) : (⟨0, 0⟩ : LineStats) + a = a :=
  LineStats.ext (Nat.zero_add _) (Nat.zero_add _)

theorem BranchStats.zero_add (a : BranchStats) : (⟨0, 0, 0⟩ : BranchStats) + a = a :=
  BranchStats.ext (Nat.zero_add _) (Nat.zero_add _) (Nat.zero_add _)

/-- A table with something added at one depth. -/
def addAt {σ : Type} [Add σ] (depth : Nat) (extra : σ) (table : Nat → σ) : Nat → σ :=
  fun d => if depth = d then table d + extra else table d

theorem update_eq_addAt {σ : Type} [Add σ] {table : Nat → σ} {depth : Nat} {value extra : σ}
    (sum : value = table depth + extra) : Function.update table depth value = addAt depth extra table := by
  funext d
  by_cases here : depth = d
  · subst here
    rw [Function.update_self, addAt, if_pos rfl, sum]
  · rw [Function.update_of_ne (Ne.symm here), addAt, if_neg here]

theorem noteStats_append (notes more : List Note) : noteStats (notes ++ more) = noteStats notes + noteStats more :=
  BranchStats.ext List.countP_append List.countP_append List.countP_append

theorem addAt_noteStats (depth : Nat) (notes more : List Note) (table : Nat → BranchStats) :
    addAt depth (noteStats more) (addAt depth (noteStats notes) table) = addAt depth (noteStats (notes ++ more)) table := by
  funext d
  unfold addAt
  split_ifs
  · rw [noteStats_append, BranchStats.add_assoc]
  · rfl

theorem addAt_noteStats_nil (depth : Nat) (table : Nat → BranchStats) : addAt depth (noteStats []) table = table := by
  funext d
  unfold addAt
  split_ifs <;> rfl

/-! ## One line of the report -/

variable {source : List Text}

/-- The number of times that a line was executed is neither of the other counts. -/
theorem decimal_ne {times : Nat} (positive : 0 < times) :
    decimal times ≠ ['-'] ∧ decimal times ≠ ['0'] ∧ decimal times ≠ hashes := by
  have value : readDigits 10 (decimal times) = some times := readDigits_toDigits (by decide) (by decide) times
  refine ⟨fun same => ?_, fun same => ?_, fun same => ?_⟩
  · rw [same] at value
    cases value
  · rw [same] at value
    have zero : 0 = times := Option.some.inj value
    omega
  · have digit := decimal_isDigit times '#' (by rw [same]; decide)
    cases digit

/-- What a record with the count should add. -/
def Count.stats (count : Count) : LineStats := ⟨if count.isExecutable then 1 else 0, if count.isNumber then 1 else 0⟩

theorem LineStats.count_known (stats : LineStats) {count : Count} (known : count.isKnown = true) :
    stats.count count.text = stats + count.stats := by
  cases count with
  | notExecutable => rfl
  | unexecuted => rfl
  | exceptional => cases known
  | executed times unexecutedBlock =>
    cases unexecutedBlock with
    | true => cases known
    | false =>
      obtain ⟨notDash, notZero, notHashes⟩ := decimal_ne times.2
      simp only [LineStats.count, Count.text, Bool.false_eq_true, if_false, List.append_nil, notDash, notZero, notHashes,
        or_self]
      rfl

theorem BranchStats.count_matched (stats : BranchStats) {note : Note} {pct : Option Nat} (matched : note.matched = some pct) :
    stats.count pct = stats + noteStats [note] := by
  cases note with
  | neverExecuted => cases matched; rfl
  | other => cases matched
  | taken width index percent more =>
    cases matched
    by_cases positive : 0 < percent <;>
      simp [BranchStats.count, noteStats, Note.isBranch, Note.isTaken, Note.isExecuted, positive] <;> rfl

theorem line_known (s : Parse) {r : Record} (known : r.count.isKnown = true) :
    s.line source r.line =
      { s with
        currentLineno := r.lineno
        linesByDepth := addAt (depthOf source r.lineno) r.count.stats s.linesByDepth } := by
  simp only [Parse.line, Parse.atRecord, matchRecord_known known, Parse.atBranch, matchBranch_line,
    update_eq_addAt (LineStats.count_known _ known)]

theorem line_unknown (s : Parse) {r : Record} (unknown : r.count.isKnown = false) : s.line source r.line = s := by
  simp only [Parse.line, Parse.atRecord, matchRecord_unknown unknown, Parse.atBranch, matchBranch_line]

theorem line_note (s : Parse) (note : Note) :
    s.line source note.line =
      { s with
        branchesByDepth := addAt (depthOf source s.currentLineno) (noteStats [note]) s.branchesByDepth } := by
  simp only [Parse.line, Parse.atRecord, matchRecord_note, Parse.atBranch, matchBranch_note]
  cases matched : note.matched with
  | some pct => simp only [update_eq_addAt (BranchStats.count_matched _ matched)]
  | none =>
    cases note with
    | taken | neverExecuted => cases matched
    | other first more =>
      have nothing : noteStats [.other first more] = noteStats [] := rfl
      simp only [nothing, addAt_noteStats_nil]

/-- The notes behind a record are counted where the last known record stands. -/
theorem foldl_notes (notes : List Note) (s : Parse) :
    (notes.map Note.line).foldl (Parse.line source) s =
      { s with branchesByDepth := addAt (depthOf source s.currentLineno) (noteStats notes) s.branchesByDepth } := by
  induction notes generalizing s with
  | nil => simp only [List.map_nil, List.foldl_nil, addAt_noteStats_nil]
  | cons note notes ih =>
    rw [List.map_cons, List.foldl_cons, line_note, ih]
    simp only [addAt_noteStats, List.singleton_append]

/-! ## The whole report -/

def Annotated.isKnown (a : Annotated) : Bool := a.record.count.isKnown

theorem filter_isAt_of_eq {a : Annotated} {d : Nat} (here : depthOf source a.record.lineno = d) (file : List Annotated) :
    (a :: file).filter (Annotated.isAt source d) = a :: file.filter (Annotated.isAt source d) :=
  List.filter_cons_of_pos (decide_eq_true here)

theorem filter_isAt_of_ne {a : Annotated} {d : Nat} (elsewhere : depthOf source a.record.lineno ≠ d)
    (file : List Annotated) : (a :: file).filter (Annotated.isAt source d) = file.filter (Annotated.isAt source d) :=
  List.filter_cons_of_neg (by simpa [Annotated.isAt] using elsewhere)

theorem recordStats_cons (a : Annotated) (file : List Annotated) :
    recordStats (a :: file) = a.record.count.stats + recordStats file := by
  unfold recordStats
  rw [List.countP_cons, List.countP_cons, Nat.add_comm, Nat.add_comm (List.countP _ _)]
  rfl

/-- What is added for a record, and then for the others, is what is added for all of them. -/
theorem addAt_lineStats (a : Annotated) (file : List Annotated) (table : Nat → LineStats) (d : Nat) :
    addAt (depthOf source a.record.lineno) a.record.count.stats table d + lineStats source file d =
      table d + lineStats source (a :: file) d := by
  by_cases here : depthOf source a.record.lineno = d
  · rw [addAt, if_pos here, LineStats.add_assoc, lineStats, lineStats, filter_isAt_of_eq here, recordStats_cons]
  · rw [addAt, if_neg here, lineStats, lineStats, filter_isAt_of_ne here]

theorem addAt_branchStats (a : Annotated) (file : List Annotated) (table : Nat → BranchStats) (d : Nat) :
    addAt (depthOf source a.record.lineno) (noteStats a.notes) table d + branchStats source file d =
      table d + branchStats source (a :: file) d := by
  by_cases here : depthOf source a.record.lineno = d
  · rw [addAt, if_pos here, BranchStats.add_assoc, branchStats, branchStats, filter_isAt_of_eq here, List.flatMap_cons,
      noteStats_append]
  · rw [addAt, if_neg here, branchStats, branchStats, filter_isAt_of_ne here]

/-- A record that the pattern knows, with its notes. -/
theorem foldl_known {a : Annotated} (known : a.isKnown = true) (s : Parse) :
    a.lines.foldl (Parse.line source) s =
      { currentLineno := a.record.lineno
        linesByDepth := addAt (depthOf source a.record.lineno) a.record.count.stats s.linesByDepth
        branchesByDepth := addAt (depthOf source a.record.lineno) (noteStats a.notes) s.branchesByDepth } := by
  rw [Annotated.lines, List.foldl_cons, line_known s known, foldl_notes]

/-- The lines of the known records are counted, whatever stands between them. -/
theorem linesByDepth_foldl (source : List Text) (file : List Annotated) (s : Parse) (d : Nat) :
    ((file.flatMap Annotated.lines).foldl (Parse.line source) s).linesByDepth d =
      s.linesByDepth d + lineStats source (file.filter Annotated.isKnown) d := by
  induction file generalizing s with
  | nil => rfl
  | cons a file ih =>
    rw [List.flatMap_cons, List.foldl_append, ih]
    cases known : a.isKnown with
    | true => rw [foldl_known known, List.filter_cons_of_pos known, addAt_lineStats]
    | false =>
      -- the notes behind a record that is passed over go into the branches, and not into the lines
      rw [Annotated.lines, List.foldl_cons, line_unknown s known, foldl_notes, List.filter_cons_of_neg (by simp [known])]

theorem branchesByDepth_foldl {file : List Annotated} (known : ∀ a ∈ file, a.isKnown = true) (s : Parse) (d : Nat) :
    ((file.flatMap Annotated.lines).foldl (Parse.line source) s).branchesByDepth d =
      s.branchesByDepth d + branchStats source file d := by
  induction file generalizing s with
  | nil => rfl
  | cons a file ih =>
    obtain ⟨here, later⟩ := List.forall_mem_cons.mp known
    rw [List.flatMap_cons, List.foldl_append, ih later, foldl_known here, addAt_branchStats]

/-- Only executable lines have a count that the pattern does not know. -/
theorem isExecutable_of_unknown {count : Count} (unknown : count.isKnown = false) : count.isExecutable = true := by
  cases count with
  | notExecutable | unexecuted => cases unknown
  | exceptional | executed => rfl

/-- A record that is passed over is missing at its depth. -/
theorem known_of_lineStats (source : List Text) {file : List Annotated}
    (all : ∀ d, lineStats source (file.filter Annotated.isKnown) d = lineStats source file d) :
    ∀ a ∈ file, a.isKnown = true := by
  intro a member
  by_contra unknown
  have unknown : a.record.count.isKnown = false := Bool.eq_false_iff.mpr unknown
  let q (b : Annotated) : Bool := b.isAt source (depthOf source a.record.lineno) && b.record.count.isExecutable
  have totals := congrArg LineStats.total (all (depthOf source a.record.lineno))
  -- the executable lines at the depth of `a` are as many as the known ones among them
  have known : (file.filter q).countP Annotated.isKnown = (file.filter q).length := by
    rw [← List.countP_eq_length_filter, List.countP_filter]
    simpa only [lineStats, recordStats, List.filter_filter, List.countP_filter, q, Bool.and_comm, Bool.and_left_comm,
      Bool.and_assoc] using totals
  have here : q a = true := by
    simp only [q, Annotated.isAt, decide_true, Bool.true_and]
    exact isExecutable_of_unknown unknown
  have isKnown : a.isKnown = true := List.countP_eq_length.mp known a (List.mem_filter.mpr ⟨member, here⟩)
  exact absurd isKnown (Bool.eq_false_iff.mp unknown)

/-- The tables are right exactly for the reports whose counts are all known to the pattern. -/
theorem countsAll_iff (source : List Text) (file : List Annotated) :
    CountsAll source file ↔ ∀ a ∈ file, a.record.count.isKnown = true := by
  have lines (d : Nat) : (parseGcovWithDepth source (file.flatMap Annotated.lines)).2 d =
      lineStats source (file.filter Annotated.isKnown) d :=
    (linesByDepth_foldl source file .start d).trans (LineStats.zero_add _)
  constructor
  · intro counts
    refine known_of_lineStats source fun d => ?_
    rw [← lines d, counts]
  · intro known
    have every : file.filter Annotated.isKnown = file := List.filter_eq_self.mpr known
    refine Prod.ext (funext fun d => ?_) (funext fun d => ?_)
    · exact (branchesByDepth_foldl known .start d).trans (BranchStats.zero_add _)
    · rw [lines, every]

/-- `f();` -/
def starredLine : Text := ['f', '(', ')', ';']

/-- A line that was executed, with a block that was not. -/
def starred : List Annotated := [⟨⟨8, .executed ⟨5, by decide⟩ true, 4, 1, starredLine⟩, []⟩]

theorem not_countsAll_starred :
    ((parseGcovWithDepth [starredLine] (starred.flatMap Annotated.lines)).2 0).total = 0 ∧
      ¬ CountsAll [starredLine] starred := by
  have passed : ((parseGcovWithDepth [starredLine] (starred.flatMap Annotated.lines)).2 0).total = 0 :=
    congrArg LineStats.total (linesByDepth_foldl [starredLine] starred .start 0)
  refine ⟨passed, fun counts => ?_⟩
  rw [counts] at passed
  exact absurd passed (by decide)

end DevFuzz.Coverage
