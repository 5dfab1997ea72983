import Mathlib.Data.List.Basic
import Mathlib.Tactic.IntervalCases

/-! # Text as scripts read it

Python's literal `re.search` and `re.split`, `str.strip` and `int`, over lists
of characters, together with the facts that connect them to printed numbers:
`pyInt_hexval` and `pyInt_decimal` read back what `hexval` and `decimal` print.
-/

namespace DevFuzz.Lib.Strings

abbrev Text := List Char

/-! ## Searching and splitting -/

/-- `re.search(pattern, text)` for a literal pattern. -/
def search (pattern : Text) : Text → Bool
  | [] => pattern.isEmpty
  | char :: text => pattern.isPrefixOf (char :: text) || search pattern text

/-- `skip` characters of a separator that has just matched are still to be passed
    over, and `field` holds the current field, reversed. -/
def splitFrom (separator : Text) : Nat → Text → Text → List Text
  | _, field, [] => [field.reverse]
  | skip + 1, field, _ :: text => splitFrom separator skip field text
  | 0, field, char :: text =>
    if separator.isPrefixOf (char :: text) then
      field.reverse :: splitFrom separator (separator.length - 1) [] text
    else splitFrom separator 0 (char :: field) text

/-- `re.split(separator, text)` for a literal, non-empty separator. -/
def split (separator text : Text) : List Text := splitFrom separator 0 [] text

/-- What no character of a fixed text is, found by running through it. -/
theorem forall_of_any {kind : Char → Bool} {text : Text} (none : text.any kind = false) :
    ∀ char ∈ text, kind char = false := by
  simpa using none

theorem search_append (pattern before after : Text) :
    search pattern (before ++ pattern ++ after) = true := by
  induction before with
  | nil =>
    cases pattern with
    | nil => cases after <;> simp [search]
    | cons char pattern =>
      have here : (char :: pattern).isPrefixOf (char :: (pattern ++ after)) = true := by
        rw [List.isPrefixOf_iff_prefix]
        exact ⟨after, rfl⟩
      simp only [List.nil_append, List.cons_append, search, here, Bool.true_or]
  | cons char before ih =>
    simp only [List.cons_append, search, ih, Bool.or_true]

/-- A text without the pattern's first character does not match. -/
theorem search_eq_false {char : Char} {pattern text : Text} (absent : char ∉ text) :
    search (char :: pattern) text = false := by
  induction text with
  | nil => rfl
  | cons head text ih =>
    simp only [List.mem_cons, not_or] at absent
    have different : (char == head) = false := by simpa using absent.1
    simp [search, List.isPrefixOf, different, ih absent.2]

theorem search_iff_isInfix {pattern text : Text} : search pattern text = true ↔ pattern <:+: text := by
  induction text with
  | nil => simp [search]
  | cons char text ih =>
    rw [search, Bool.or_eq_true, List.isPrefixOf_iff_prefix, ih, List.infix_cons_iff]

/-- A text with too few of one of the pattern's characters does not match. -/
theorem search_eq_false_of_count {pattern text : Text} (char : Char) (few : text.count char < pattern.count char) :
    search pattern text = false := by
  rw [← Bool.not_eq_true, search_iff_isInfix]
  intro found
  have := found.sublist.count_le char
  omega

/-- `text[text.find(pattern):]`, unless the pattern is not found. -/
def findFrom (pattern : Text) : Text → Option Text
  | [] => if pattern.isEmpty then some [] else none
  | char :: text =>
    if pattern.isPrefixOf (char :: text) then some (char :: text) else findFrom pattern text

theorem findFrom_eq_none {pattern text : Text} (absent : search pattern text = false) :
    findFrom pattern text = none := by
  induction text with
  | nil => simpa [search, findFrom] using absent
  | cons char text ih =>
    rw [search, Bool.or_eq_false_iff] at absent
    rw [findFrom, if_neg (by simp [absent.1])]
    exact ih absent.2

/-- A pattern that cannot overlap with itself is found where it is put. -/
theorem findFrom_append {char : Char} {pattern before : Text} (after : Text) (once : char ∉ pattern)
    (absent : search (char :: pattern) before = false) :
    findFrom (char :: pattern) (before ++ (char :: pattern ++ after)) = some (char :: pattern ++ after) := by
  induction before with
  | nil =>
    have here : (char :: pattern).isPrefixOf (char :: (pattern ++ after)) = true := by
      rw [List.isPrefixOf_iff_prefix]
      exact List.prefix_append (char :: pattern) after
    simp only [List.nil_append, List.cons_append, findFrom, here, if_true]
  | cons head before ih =>
    rw [search, Bool.or_eq_false_iff, ← Bool.not_eq_true, List.isPrefixOf_iff_prefix] at absent
    obtain ⟨notHere, notLater⟩ := absent
    have elsewhere : ¬ char :: pattern <+: (head :: before) ++ (char :: pattern ++ after) := by
      intro found
      -- a match here is either inside of `before` or reaches the first character of the other one
      rcases List.prefix_or_prefix_of_prefix found (List.prefix_append (head :: before) _) with
        inside | ⟨rest, overlap⟩
      · exact notHere inside
      · cases rest with
        | nil => exact notHere ⟨[], by simp [← overlap]⟩
        | cons next rest =>
          obtain ⟨same, tail⟩ := List.cons.inj overlap
          rw [← overlap, List.prefix_append_right_inj] at found
          have reaches : next = char := (List.cons_prefix_cons.mp found).1.trans same
          exact once (by simp [← tail, reaches])
    rw [List.cons_append, findFrom, if_neg (by rwa [List.isPrefixOf_iff_prefix])]
    exact ih notLater

theorem splitFrom_skip (separator passed rest field : Text) :
    splitFrom separator passed.length field (passed ++ rest) =
      splitFrom separator 0 field rest := by
  induction passed with
  | nil => rfl
  | cons char passed ih => simpa [splitFrom] using ih

/-- Characters that cannot start the separator extend the current field. -/
theorem splitFrom_of_notMem {char : Char} {separator : Text} (before rest field : Text)
    (absent : char ∉ before) :
    splitFrom (char :: separator) 0 field (before ++ rest) =
      splitFrom (char :: separator) 0 (before.reverse ++ field) rest := by
  induction before generalizing field with
  | nil => rfl
  | cons head before ih =>
    simp only [List.mem_cons, not_or] at absent
    have different : (char == head) = false := by simpa using absent.1
    simp [splitFrom, List.isPrefixOf, different, ih _ absent.2]

theorem splitFrom_separator {char : Char} (separator rest field : Text) :
    splitFrom (char :: separator) 0 field (char :: separator ++ rest) =
      field.reverse :: split (char :: separator) rest := by
  have here : (char :: separator).isPrefixOf (char :: (separator ++ rest)) = true := by
    rw [List.isPrefixOf_iff_prefix]
    exact ⟨rest, rfl⟩
  simp only [List.cons_append, splitFrom, here, if_true, List.length_cons, Nat.add_sub_cancel]
  rw [splitFrom_skip]
  rfl

/-- A lone character that starts the separator but is not followed by it extends the field. -/
theorem splitFrom_lone {char : Char} {separator text field : Text}
    (lone : (char :: separator).isPrefixOf (char :: text) = false) :
    splitFrom (char :: separator) 0 field (char :: text) =
      splitFrom (char :: separator) 0 (char :: field) text := by
  simp only [splitFrom, lone, Bool.false_eq_true, if_false]

theorem split_of_notMem {char : Char} {separator : Text} (before rest : Text)
    (absent : char ∉ before) :
    split (char :: separator) (before ++ (char :: separator) ++ rest) =
      before :: split (char :: separator) rest := by
  rw [split, List.append_assoc, splitFrom_of_notMem before _ _ absent, splitFrom_separator]
  simp

/-! ## Stripping -/

/-- `str.isspace` on one character. -/
def isSpace (char : Char) : Bool :=
  let code := char.toNat
  (9 ≤ code && code ≤ 13) || (28 ≤ code && code ≤ 32) || code == 0x85 || code == 0xa0 ||
    code == 0x1680 || (0x2000 ≤ code && code ≤ 0x200a) || code == 0x2028 || code == 0x2029 ||
    code == 0x202f || code == 0x205f || code == 0x3000

/-- `str.strip` -/
def strip (text : Text) : Text :=
  ((text.dropWhile isSpace).reverse.dropWhile isSpace).reverse

theorem isInfix_strip (text : Text) : strip text <:+: text := by
  have front : text.dropWhile isSpace <:+ text := List.dropWhile_suffix _
  have back : ((text.dropWhile isSpace).reverse.dropWhile isSpace).reverse <+: text.dropWhile isSpace := by
    rw [← List.reverse_suffix, List.reverse_reverse]
    exact List.dropWhile_suffix _
  exact back.isInfix.trans front.isInfix

/-- What is stripped stands before and behind a text that starts and ends without a blank. -/
theorem strip_append (before : Text) {body blanks : Text} (nonempty : body ≠ [])
    (firstSolid : isSpace (body.head nonempty) = false)
    (lastSolid : isSpace (body.getLast nonempty) = false) (blank : ∀ char ∈ blanks, isSpace char = true) :
    strip (before ++ body ++ blanks) = before.dropWhile isSpace ++ body := by
  have front : (before ++ body ++ blanks).dropWhile isSpace = before.dropWhile isSpace ++ body ++ blanks := by
    rw [List.append_assoc, List.dropWhile_append]
    split_ifs with empty
    · cases body with
      | nil => exact absurd rfl nonempty
      | cons first rest =>
        have solid : isSpace first = false := firstSolid
        simp [List.isEmpty_iff.mp empty, solid]
    · exact (List.append_assoc ..).symm
  have back : (body.reverse ++ (before.dropWhile isSpace).reverse).dropWhile isSpace =
      body.reverse ++ (before.dropWhile isSpace).reverse := by
    obtain ⟨rest, last, rfl⟩ := List.eq_nil_or_concat body |>.resolve_left nonempty
    have solid : isSpace last = false := by simpa using lastSolid
    simp [solid]
  rw [strip, front, List.reverse_append, List.dropWhile_append_of_pos (by simpa using blank), List.reverse_append, back,
    ← List.reverse_append, List.reverse_reverse]

theorem strip_eq {first last : Char} {middle blanks : Text} (firstSolid : isSpace first = false)
    (lastSolid : isSpace last = false) (blank : ∀ char ∈ blanks, isSpace char = true) :
    strip (first :: middle ++ [last] ++ blanks) = first :: middle ++ [last] :=
  strip_append [] (by simp) firstSolid (by simpa using lastSolid) blank

/-! ## Numbers -/

def digitValue? (char : Char) : Option Nat :=
  if '0' ≤ char ∧ char ≤ '9' then some (char.toNat - '0'.toNat)
  else if 'a' ≤ char ∧ char ≤ 'z' then some (char.toNat - 'a'.toNat + 10)
  else if 'A' ≤ char ∧ char ≤ 'Z' then some (char.toNat - 'A'.toNat + 10)
  else none

/-- One character of a numeral: the value so far, and whether the last character was a digit
    (an underscore may only stand after one). -/
def digitStep (base : Nat) : Nat × Bool → Char → Option (Nat × Bool)
  | (value, afterDigit), char =>
    if char = '_' then if afterDigit then some (value, false) else none
    else match digitValue? char with
      | some digit => if digit < base then some (value * base + digit, true) else none
      | none => none

def readDigits (base : Nat) (text : Text) : Option Nat :=
  match text.foldlM (digitStep base) (0, false) with
  | some (value, true) => some value
  | _ => none

/-- The `0x` that `int(text, 16)` allows before the digits, with the underscore after it. -/
def dropRadix (base : Nat) : Text → Text
  | '0' :: x :: '_' :: rest =>
    if base = 16 ∧ (x = 'x' ∨ x = 'X') then rest else '0' :: x :: '_' :: rest
  | '0' :: x :: rest => if base = 16 ∧ (x = 'x' ∨ x = 'X') then rest else '0' :: x :: rest
  | text => text

/-- `int(text, base)` for base 10 or 16 and ASCII digits; `none` is `ValueError`. -/
def pyInt (base : Nat) (text : Text) : Option Int :=
  match strip text with
  | '-' :: rest => (readDigits base (dropRadix base rest)).map fun value => -(value : Int)
  | '+' :: rest => (readDigits base (dropRadix base rest)).map fun value => (value : Int)
  | rest => (readDigits base (dropRadix base rest)).map fun value => (value : Int)

def decimal (value : Nat) : Text := Nat.toDigits 10 value

/-- `hexval(value)`: the value in lower-case hexadecimal after `0x`. -/
def hexval (value : Nat) : Text := '0' :: 'x' :: Nat.toDigits 16 value

theorem decimal_ne_nil (value : Nat) : decimal value ≠ [] := Nat.toDigits_ne_nil

theorem decimal_no_underscore (value : Nat) : '_' ∉ decimal value := Nat.underscore_not_in_toDigits

theorem hexval_ne_nil (value : Nat) : hexval value ≠ [] := by simp [hexval]

theorem digitValue?_digitChar {digit : Nat} (bound : digit < 16) :
    digitValue? (Nat.digitChar digit) = some digit := by
  interval_cases digit <;> rfl

theorem digitChar_ne_underscore {digit : Nat} (bound : digit < 16) :
    Nat.digitChar digit ≠ '_' := by
  interval_cases digit <;> decide

theorem mem_toDigits {base value : Nat} {char : Char} (low : 1 < base)
    (member : char ∈ Nat.toDigits base value) : ∃ digit, digit < base ∧ char = Nat.digitChar digit := by
  induction value using Nat.strong_induction_on with
  | _ value ih =>
    by_cases small : value < base
    · rw [Nat.toDigits_of_lt_base small, List.mem_singleton] at member
      exact ⟨value, small, member⟩
    · rw [Nat.toDigits_of_base_le low (by omega), List.mem_append, List.mem_singleton] at member
      rcases member with high | last
      · exact ih (value / base) (Nat.div_lt_self (by omega) low) high
      · exact ⟨value % base, Nat.mod_lt _ (by omega), last⟩

theorem foldlM_toDigits {base : Nat} (low : 1 < base) (high : base ≤ 16) (value : Nat)
    (afterDigit : Bool) :
    (Nat.toDigits base value).foldlM (digitStep base) (0, afterDigit) = some (value, true) := by
  have single : ∀ (digit prior : Nat) (flag : Bool), digit < base →
      digitStep base (prior, flag) (Nat.digitChar digit) = some (prior * base + digit, true) := by
    intro digit prior flag bound
    simp [digitStep, digitChar_ne_underscore (by omega : digit < 16),
      digitValue?_digitChar (by omega : digit < 16), bound]
  -- `toDigits` appends the last digit to the digits of the quotient
  induction value using Nat.strong_induction_on with
  | _ value ih =>
    by_cases small : value < base
    · simp [Nat.toDigits_of_lt_base small, single value 0 afterDigit small]
    · have smaller : value / base < value := Nat.div_lt_self (by omega) low
      have last := single (value % base) (value / base) true (Nat.mod_lt _ (by omega))
      rw [Nat.toDigits_of_base_le low (by omega), List.foldlM_append, ih _ smaller]
      simp [last, Nat.div_add_mod']

theorem readDigits_toDigits {base : Nat} (low : 1 < base) (high : base ≤ 16) (value : Nat) :
    readDigits base (Nat.toDigits base value) = some value := by
  simp [readDigits, foldlM_toDigits low high]

/-- What holds of the sixteen digits holds of the digits of a number. -/
theorem forall_toDigits {P : Char → Prop} {base value : Nat} (low : 1 < base) (high : base ≤ 16)
    (digits : ∀ digit < 16, P (Nat.digitChar digit)) : ∀ char ∈ Nat.toDigits base value, P char := by
  intro char member
  obtain ⟨digit, bound, rfl⟩ := mem_toDigits low member
  exact digits digit (by omega)

theorem forall_hexval {P : Char → Prop} {value : Nat} (ex : P 'x') (digits : ∀ digit < 16, P (Nat.digitChar digit)) :
    ∀ char ∈ hexval value, P char := by
  intro char member
  simp only [hexval, List.mem_cons] at member
  rcases member with rfl | rfl | digit
  · exact digits 0 (by decide)
  · exact ex
  · exact forall_toDigits (by decide) (by decide) digits char digit

theorem digitChar_solid {digit : Nat} (bound : digit < 16) :
    isSpace (Nat.digitChar digit) = false := by
  interval_cases digit <;> decide

theorem hexval_solid (value : Nat) : ∀ char ∈ hexval value, isSpace char = false :=
  forall_hexval rfl fun _ bound => digitChar_solid bound

theorem decimal_solid (value : Nat) : ∀ char ∈ decimal value, isSpace char = false :=
  forall_toDigits (by decide) (by decide) fun _ bound => digitChar_solid bound

theorem hexval_no_underscore (value : Nat) : '_' ∉ hexval value := by
  intro member
  exact forall_hexval (P := (· ≠ '_')) (by decide) (fun _ bound => digitChar_ne_underscore bound) _ member rfl

/-- A text without blanks is its own strip. -/
theorem strip_of_solid {text : Text} (solid : ∀ char ∈ text, isSpace char = false) :
    strip text = text := by
  have keep : ∀ list : Text, (∀ char ∈ list, isSpace char = false) →
      list.dropWhile isSpace = list := by
    intro list clean
    cases list with
    | nil => rfl
    | cons char list => exact List.dropWhile_cons_of_neg (by simp [clean char])
  rw [strip, keep text solid, keep text.reverse (by simpa using solid), List.reverse_reverse]

theorem pyInt_of_unsigned {base : Nat} {text : Text} {value : Nat}
    (solid : ∀ char ∈ text, isSpace char = false)
    (unsigned : ∀ char ∈ text, char ≠ '-' ∧ char ≠ '+')
    (digits : readDigits base (dropRadix base text) = some value) :
    pyInt base text = some (value : Int) := by
  rw [pyInt, strip_of_solid solid]
  split
  · exact absurd rfl (unsigned '-' List.mem_cons_self).1
  · exact absurd rfl (unsigned '+' List.mem_cons_self).2
  · rw [digits]; rfl

theorem digitChar_unsigned {digit : Nat} (bound : digit < 16) :
    Nat.digitChar digit ≠ '-' ∧ Nat.digitChar digit ≠ '+' := by
  interval_cases digit <;> decide

theorem dropRadix_hexval (value : Nat) : dropRadix 16 (hexval value) = Nat.toDigits 16 value := by
  -- the first digit is not the underscore that `dropRadix` would also drop
  unfold hexval
  cases digits : Nat.toDigits 16 value with
  | nil => exact absurd digits Nat.toDigits_ne_nil
  | cons char rest =>
    have first : char ∈ Nat.toDigits 16 value := by simp [digits]
    obtain ⟨digit, bound, rfl⟩ := mem_toDigits (by decide) first
    have notUnderscore := digitChar_ne_underscore bound
    unfold dropRadix
    split
    · rename_i equal
      simp only [List.cons.injEq] at equal
      exact absurd equal.2.2.1 notUnderscore
    · rename_i equal
      simp only [List.cons.injEq] at equal
      simp [← equal.2.1, equal.2.2]
    · rename_i other
      exact absurd rfl (other 'x' (Nat.digitChar digit :: rest))

theorem pyInt_hexval (value : Nat) : pyInt 16 (hexval value) = some (value : Int) := by
  apply pyInt_of_unsigned (hexval_solid value)
  · exact forall_hexval (by decide) fun _ bound => digitChar_unsigned bound
  · rw [dropRadix_hexval]
    exact readDigits_toDigits (by decide) (by decide) value

theorem hexval_inj {value other : Nat} : hexval value = hexval other ↔ value = other := by
  constructor
  · intro same
    have read := congrArg (pyInt 16) same
    rw [pyInt_hexval, pyInt_hexval, Option.some.injEq, Int.natCast_inj] at read
    exact read
  · exact congrArg hexval

theorem dropRadix_ten (text : Text) : dropRadix 10 text = text := by
  unfold dropRadix
  split <;> simp

theorem pyInt_decimal (value : Nat) : pyInt 10 (decimal value) = some (value : Int) := by
  apply pyInt_of_unsigned (decimal_solid value)
  · exact forall_toDigits (by decide) (by decide) fun _ bound => digitChar_unsigned bound
  · rw [dropRadix_ten]
    exact readDigits_toDigits (by decide) (by decide) value

end DevFuzz.Lib.Strings
