import DevFuzz.Lib.Strings

/-! # Tokens of a program text

The text of a program in the manner of C as a compiler sees it: words and single marks, without blanks and without
comments that go to the end of their line.

`Printed` says of a piece of text that it is whole: the tokens of a text are those of such a piece followed by those
of the rest.  It also keeps a condition on the characters.
-/

namespace DevFuzz.Lib.Tokens

open Strings

/-! ## The scanner -/

def isWord (char : Char) : Bool := char.isAlphanum || char == '_'

/-- `word` is what has been read of a word, reversed. -/
inductive Mode where
  | code (word : Text)
  | slash
  | comment
  deriving DecidableEq

def flush : Mode → List Text
  | .code [] => []
  | .code (char :: word) => [(char :: word).reverse]
  | .slash => [['/']]
  | .comment => []

def stepCode (word : Text) (char : Char) : Mode × List Text :=
  if isWord char then (.code (char :: word), [])
  else if char = '/' then (.slash, flush (.code word))
  else (.code [], flush (.code word) ++ if isSpace char then [] else [[char]])

def step : Mode → Char → Mode × List Text
  | .code word, char => stepCode word char
  | .slash, char =>
    if char = '/' then (.comment, [])
    else ((stepCode [] char).1, ['/'] :: (stepCode [] char).2)
  | .comment, char => (if char = '\n' then .code [] else .comment, [])

def scan : Mode → Text → Mode × List Text
  | mode, [] => (mode, [])
  | mode, char :: text =>
    match step mode char with
    | (mode, out) =>
      match scan mode text with
      | (mode, more) => (mode, out ++ more)

def tokens (text : Text) : List Text :=
  match scan (.code []) text with
  | (mode, toks) => toks ++ flush mode

theorem scan_cons (mode : Mode) (char : Char) (text : Text) :
    scan mode (char :: text) =
      ((scan (step mode char).1 text).1, (step mode char).2 ++ (scan (step mode char).1 text).2) := rfl

theorem scan_append (mode : Mode) (left right : Text) :
    scan mode (left ++ right) =
      ((scan (scan mode left).1 right).1, (scan mode left).2 ++ (scan (scan mode left).1 right).2) := by
  induction left generalizing mode with
  | nil => rfl
  | cons char left ih => simp [scan_cons, ih]

/-- A line ends the word or the comment that it is in. -/
theorem step_newline (mode : Mode) : (step mode '\n').1 = .code [] := by
  cases mode with
  | code word => rfl
  | slash => rfl
  | comment => rfl

theorem scan_newline (mode : Mode) (line : Text) : (scan mode (line ++ ['\n'])).1 = .code [] := by
  rw [scan_append]
  exact step_newline _

theorem scan_blanks {blanks : Text} (blank : ∀ char ∈ blanks, char = ' ') : scan (.code []) blanks = (.code [], []) := by
  induction blanks with
  | nil => rfl
  | cons char blanks ih =>
    obtain rfl := blank char List.mem_cons_self
    exact ih fun char member => blank char (List.mem_cons_of_mem _ member)

/-- Blanks at the starts of lines do not matter. -/
theorem scan_indent {indent : Text} (blank : ∀ char ∈ indent, char = ' ') {lines : List Text}
    (ends : ∀ line ∈ lines, ∃ text, line = text ++ ['\n']) :
    scan (.code []) (lines.flatMap (indent ++ ·)) = scan (.code []) lines.flatten := by
  induction lines with
  | nil => rfl
  | cons line lines ih =>
    rw [List.forall_mem_cons] at ends
    obtain ⟨⟨text, rfl⟩, later⟩ := ends
    have start : (scan (.code []) (text ++ ['\n'])).1 = .code [] := scan_newline _ _
    rw [List.flatMap_cons, List.flatten_cons, List.append_assoc, scan_append, scan_blanks blank, scan_append,
      scan_append (.code []) (text ++ ['\n']), start, ih later]
    rfl

/-! ## Pieces of text -/

/-- The piece has these tokens, whatever stands around it, and only characters that are allowed. -/
structure Printed (ok : Char → Bool) (text : Text) (toks : List Text) : Prop where
  scan : scan (.code []) text = (.code [], toks)
  chars : ∀ char ∈ text, ok char = true

section

variable {ok : Char → Bool} {text rest word : Text} {toks more : List Text}

theorem Printed.tokens (printed : Printed ok text toks) : Tokens.tokens text = toks := by
  simp [Tokens.tokens, printed.scan, flush]

theorem Printed.append (printed : Printed ok text toks) (later : Printed ok rest more) :
    Printed ok (text ++ rest) (toks ++ more) := by
  constructor
  · simp [scan_append, printed.scan, later.scan]
  · intro char member
    rcases List.mem_append.mp member with member | member
    · exact printed.chars char member
    · exact later.chars char member

theorem printed_nil : Printed ok [] [] := ⟨rfl, nofun⟩

/-- A fixed text. -/
theorem printed_literal (scan : scan (.code []) text = (.code [], toks)) (chars : text.all ok = true) :
    Printed ok text toks :=
  ⟨scan, List.all_eq_true.mp chars⟩

theorem printed_blanks (n : Nat) (blank : ok ' ' = true) : Printed ok (List.replicate n ' ') [] :=
  ⟨scan_blanks fun _ member => List.eq_of_mem_replicate member, fun _ member => List.eq_of_mem_replicate member ▸ blank⟩

/-- The text does not go on with a word. -/
def opens : Text → Bool
  | [] => false
  | char :: _ => !isWord char

theorem scan_word (letters : ∀ char ∈ word, isWord char = true) (before : Text) :
    scan (.code before) word = (.code (word.reverse ++ before), []) := by
  induction word generalizing before with
  | nil => rfl
  | cons char word ih =>
    rw [List.forall_mem_cons] at letters
    simp [scan_cons, step, stepCode, letters.1, ih letters.2]

theorem scan_after_word (after : opens text = true) {char : Char} (before : Text) :
    scan (.code (char :: before)) text =
      ((scan (.code []) text).1, (char :: before).reverse :: (scan (.code []) text).2) := by
  cases text with
  | nil => cases after
  | cons first text =>
    have mark : isWord first = false := by simpa [opens] using after
    by_cases slash : first = '/'
    · subst slash
      rfl
    · simp [scan_cons, step, stepCode, mark, slash, flush]

theorem Printed.afterWord (printed : Printed ok text toks) (letters : ∀ char ∈ word, isWord char = true)
    (chars : ∀ char ∈ word, ok char = true) (nonempty : word ≠ []) (after : opens text = true) :
    Printed ok (word ++ text) (word :: toks) := by
  constructor
  · rw [scan_append, scan_word letters, List.append_nil]
    obtain ⟨char, before, last⟩ := List.exists_cons_of_ne_nil (List.reverse_ne_nil_iff.mpr nonempty)
    have whole : (char :: before).reverse = word := by rw [← last, List.reverse_reverse]
    rw [last, scan_after_word after, printed.scan, whole]
    rfl
  · intro char member
    rcases List.mem_append.mp member with member | member
    · exact chars char member
    · exact printed.chars char member

end

end DevFuzz.Lib.Tokens
