import DevFuzz.Lib.Tokens

/-! # Readers of tokens

A reader takes what it needs from the front of a list of tokens.  `Reads` says that it takes exactly these tokens,
whatever follows them; there is a rule for each way to put readers together.
-/

namespace DevFuzz.Lib.Readers

open Strings

abbrev Reader (α : Type) := StateT (List Text) Option α

section

variable {α β : Type}

def accept (expected : List Text) : Reader Unit := fun toks => (expected.isPrefixOf? toks).map ((), ·)

def nextToken : Reader Text
  | [] => none
  | tok :: rest => some (tok, rest)

/-- Items up to a closing token. -/
def manyFrom (closing : Text) (item : Reader α) : Nat → Reader (List α)
  | 0, _ => none
  | fuel + 1, toks =>
    if toks.head? = some closing then some ([], toks.tail)
    else (do
      let a ← item
      let l ← manyFrom closing item fuel
      return a :: l) toks

/-- Every item takes a token. -/
def many (closing : Text) (item : Reader α) : Reader (List α) := fun toks =>
  manyFrom closing item (toks.length + 1) toks

/-- A number as a compiler reads it, without a sign. -/
def number (tok : Text) : Option Nat :=
  match tok with
  | '0' :: 'x' :: digits => readDigits 16 digits
  | digits => readDigits 10 digits

def unsigned : Reader Nat := do
  let tok ← nextToken
  number tok

def integer : Reader Int := do
  let tok ← nextToken
  if tok = ['-'] then
    let value ← unsigned
    return -(value : Int)
  else
    let value ← number tok
    return (value : Int)

/-! ## The rules -/

/-- The reader takes these tokens, and finds `a` in them. -/
def Reads (reader : Reader α) (toks : List Text) (a : α) : Prop := ∀ rest, reader (toks ++ rest) = some (a, rest)

theorem reads_pure (a : α) : Reads (pure a) [] a := fun _ => rfl

/-- What follows goes on with the rest of the tokens. -/
theorem Reads.bind_apply {reader : Reader α} {toks : List Text} {a : α} (reads : Reads reader toks a)
    (f : α → Reader β) (rest : List Text) : (reader >>= f) (toks ++ rest) = f a rest := by
  show (reader (toks ++ rest)).bind (fun p => f p.1 p.2) = f a rest
  rw [reads]
  rfl

theorem Reads.bind {reader : Reader α} {f : α → Reader β} {toks more : List Text} {a : α} {b : β}
    (first : Reads reader toks a) (second : Reads (f a) more b) : Reads (reader >>= f) (toks ++ more) b := by
  intro rest
  rw [List.append_assoc, first.bind_apply]
  exact second rest

theorem reads_accept (expected : List Text) : Reads (accept expected) expected () := by
  intro rest
  have found : expected.isPrefixOf? (expected ++ rest) = some rest := by
    induction expected with
    | nil => rfl
    | cons tok expected ih => simp [List.isPrefixOf?, ih]
  rw [accept, found]
  rfl

/-- Another token than the expected one. -/
theorem accept_eq_none {expected : List Text} {first tok : Text} (head : expected.head? = some first)
    (differs : first ≠ tok) (toks : List Text) : accept expected (tok :: toks) = none := by
  obtain ⟨others, rfl⟩ := List.head?_eq_some_iff.mp head
  simp [accept, List.isPrefixOf?, differs]

theorem bind_eq_none {reader : Reader α} {toks : List Text} (fails : reader toks = none) (f : α → Reader β) :
    (reader >>= f) toks = none := by
  show (reader toks).bind (fun p => f p.1 p.2) = none
  rw [fails]
  rfl

theorem reads_nextToken (tok : Text) : Reads nextToken [tok] tok := fun _ => rfl

theorem reads_manyFrom_nil (closing : Text) (item : Reader α) (fuel : Nat) :
    Reads (manyFrom closing item (fuel + 1)) [closing] [] :=
  fun rest => by simp [manyFrom]

theorem reads_manyFrom_cons {closing tok : Text} {item : Reader α} {toks more : List Text} {a : α} {l : List α}
    {fuel : Nat} (differs : tok ≠ closing) (first : Reads item (tok :: toks) a)
    (others : Reads (manyFrom closing item fuel) more l) :
    Reads (manyFrom closing item (fuel + 1)) (tok :: toks ++ more) (a :: l) := by
  have both : Reads (item >>= fun a => manyFrom closing item fuel >>= fun l => pure (a :: l))
      (tok :: toks ++ (more ++ [])) (a :: l) := first.bind (others.bind (reads_pure _))
  intro rest
  rw [manyFrom, if_neg (by simpa using differs)]
  simpa using both rest

end

/-! ## Numbers -/

theorem number_hexval (value : Nat) : number (hexval value) = some value :=
  readDigits_toDigits (by decide) (by decide) value

theorem number_decimal (value : Nat) : number (decimal value) = some value := by
  have plain : ∀ digits, decimal value ≠ '0' :: 'x' :: digits := by
    intro digits same
    have digit : ∀ char ∈ decimal value, char ≠ 'x' :=
      forall_toDigits (by decide) (by decide) fun digit bound => by interval_cases digit <;> decide
    exact digit 'x' (by simp [same]) rfl
  unfold number
  split
  · rename_i digits same
    exact absurd same (plain digits)
  · exact readDigits_toDigits (by decide) (by decide) value

/-- A number with its sign, as `print` prints what is behind the sign. -/
def signedTokens (print : Nat → Text) : Int → List Text
  | .ofNat value => [print value]
  | .negSucc value => [['-'], print (value + 1)]

theorem reads_lift {α : Type} {x : Option α} {a : α} (value : x = some a) : Reads (liftM x) [] a := by
  subst value
  exact fun _ => rfl

theorem reads_unsigned {tok : Text} {value : Nat} (reads : number tok = some value) : Reads unsigned [tok] value :=
  (reads_nextToken tok).bind (reads_lift reads)

theorem reads_integer {print : Nat → Text} (reads : ∀ value, number (print value) = some value)
    (value : Int) : Reads integer (signedTokens print value) value := by
  cases value with
  | ofNat value =>
    have plain : print value ≠ ['-'] := by
      intro same
      have := reads value
      rw [same] at this
      cases this
    rw [signedTokens, ← List.append_nil [print value]]
    refine (reads_nextToken (print value)).bind ?_
    rw [if_neg plain]
    exact (reads_lift (reads value)).bind (reads_pure _)
  | negSucc value =>
    refine (reads_nextToken ['-']).bind ?_
    rw [if_pos rfl]
    exact (reads_unsigned (reads (value + 1))).bind (reads_pure _)

/-! ## Text that is read -/

section

variable {α β : Type} {ok : Char → Bool} {text rest fixed : Text}

/-- The tokens of a fixed text are expected. -/
def expect (text : Text) : Reader Unit := accept (Tokens.tokens text)

/-- The text is whole, and the reader finds `a` in it. -/
def Prints (ok : Char → Bool) (reader : Reader α) (text : Text) (a : α) : Prop :=
  ∃ toks, Tokens.Printed ok text toks ∧ Reads reader toks a

/-- The text starts with the token. -/
def PrintsFrom (ok : Char → Bool) (tok : Text) (reader : Reader α) (text : Text) (a : α) : Prop :=
  ∃ toks, Tokens.Printed ok text (tok :: toks) ∧ Reads reader (tok :: toks) a

theorem prints_pure (a : α) : Prints ok (pure a) [] a := ⟨[], Tokens.printed_nil, reads_pure a⟩

theorem Prints.bind {reader : Reader α} {f : α → Reader β} {a : α} {b : β} (first : Prints ok reader text a)
    (second : Prints ok (f a) rest b) : Prints ok (reader >>= f) (text ++ rest) b := by
  obtain ⟨toks, printed, reads⟩ := first
  obtain ⟨more, later, found⟩ := second
  exact ⟨toks ++ more, printed.append later, reads.bind found⟩

theorem Prints.expect {expected : Text} {f : Unit → Reader β} {b : β} (prints : Prints ok (f ()) text b)
    (scan : Tokens.scan (.code []) fixed = (.code [], Tokens.tokens expected)) (chars : fixed.all ok = true) :
    Prints ok (Readers.expect expected >>= f) (fixed ++ text) b := by
  obtain ⟨toks, printed, reads⟩ := prints
  exact ⟨_, (Tokens.printed_literal scan chars).append printed, (reads_accept _).bind reads⟩

theorem Prints.expectFrom {expected tok : Text} {f : Unit → Reader β} {b : β} (prints : Prints ok (f ()) text b)
    (scan : Tokens.scan (.code []) fixed = (.code [], Tokens.tokens expected)) (chars : fixed.all ok = true)
    (first : (Tokens.tokens expected).head? = some tok) :
    PrintsFrom ok tok (Readers.expect expected >>= f) (fixed ++ text) b := by
  obtain ⟨toks, printed, reads⟩ := prints
  obtain ⟨others, same⟩ := List.head?_eq_some_iff.mp first
  have accepts : Reads (Readers.expect expected) (tok :: others) () := by
    rw [← same]
    exact reads_accept _
  exact ⟨others ++ toks, (Tokens.printed_literal (scan.trans (by rw [same])) chars).append printed, accepts.bind reads⟩

/-- Blanks and comments. -/
theorem Prints.skip {reader : Reader α} {a : α} (prints : Prints ok reader text a)
    (skipped : Tokens.Printed ok fixed []) : Prints ok reader (fixed ++ text) a := by
  obtain ⟨toks, printed, reads⟩ := prints
  exact ⟨toks, skipped.append printed, reads⟩

/-- The items of a list, with the number of tokens that is asked for as fuel. -/
theorem prints_items {closing : Text} {item : Reader β} {l : List α} {print : α → Text} {value : α → β}
    (each : ∀ a ∈ l, ∃ tok, tok ≠ closing ∧ PrintsFrom ok tok item (print a) (value a)) :
    ∃ toks, Tokens.Printed ok (l.flatMap print) toks ∧ l.length ≤ toks.length ∧
      ∀ fuel, l.length < fuel → Reads (manyFrom closing item fuel) (toks ++ [closing]) (l.map value) := by
  induction l with
  | nil =>
    refine ⟨[], Tokens.printed_nil, Nat.le_refl _, fun fuel enough => ?_⟩
    obtain ⟨fuel, rfl⟩ := Nat.exists_eq_succ_of_ne_zero (Nat.ne_of_gt enough)
    exact reads_manyFrom_nil closing item fuel
  | cons a l ih =>
    rw [List.forall_mem_cons] at each
    obtain ⟨⟨tok, differs, here, printed, reads⟩, later⟩ := each
    obtain ⟨toks, others, short, found⟩ := ih later
    refine ⟨tok :: here ++ toks, printed.append others, ?_, fun fuel enough => ?_⟩
    · simp only [List.length_cons, List.length_append]
      omega
    · obtain ⟨fuel, rfl⟩ := Nat.exists_eq_succ_of_ne_zero (Nat.ne_of_gt (Nat.zero_lt_of_lt enough))
      rw [List.append_assoc]
      exact reads_manyFrom_cons differs reads (found fuel (Nat.lt_of_succ_lt_succ enough))

theorem Prints.many {γ : Type} {closing : Text} {item : Reader β} {l : List α} {print : α → Text} {value : α → β}
    {f : List β → Reader γ} {c : γ} (prints : Prints ok (f (l.map value)) text c)
    (each : ∀ a ∈ l, ∃ tok, tok ≠ closing ∧ PrintsFrom ok tok item (print a) (value a))
    (scan : Tokens.scan (.code []) fixed = (.code [], [closing])) (chars : fixed.all ok = true) :
    Prints ok (many closing item >>= f) (l.flatMap print ++ (fixed ++ text)) c := by
  obtain ⟨toks, printed, short, found⟩ := prints_items each
  obtain ⟨others, later, reads⟩ := prints
  have list : Reads (Readers.many closing item) (toks ++ [closing]) (l.map value) := by
    intro rest
    refine found _ ?_ rest
    simp only [List.length_append, List.length_cons, List.length_nil]
    omega
  refine ⟨toks ++ ([closing] ++ others), printed.append ((Tokens.printed_literal scan chars).append later), ?_⟩
  rw [← List.append_assoc]
  exact list.bind reads

/-- A number behind which something else than a word starts. -/
theorem Prints.afterWord {f : Text → Reader β} {word : Text} {b : β} (prints : Prints ok (f word) text b)
    (letters : ∀ char ∈ word, Tokens.isWord char = true) (chars : ∀ char ∈ word, ok char = true)
    (nonempty : word ≠ []) (after : Tokens.opens text = true) : Prints ok (nextToken >>= f) (word ++ text) b := by
  obtain ⟨toks, printed, reads⟩ := prints
  exact ⟨word :: toks, printed.afterWord letters chars nonempty after, (reads_nextToken word).bind reads⟩

/-! ### Numbers in a text -/

/-- A way to print numbers as words that are read back. -/
structure Numeral (ok : Char → Bool) (print : Nat → Text) : Prop where
  reads : ∀ value, number (print value) = some value
  letters : ∀ value, ∀ char ∈ print value, Tokens.isWord char = true
  chars : ∀ value, ∀ char ∈ print value, ok char = true
  nonempty : ∀ value, print value ≠ []

theorem isWord_digitChar {digit : Nat} (bound : digit < 16) : Tokens.isWord (Nat.digitChar digit) = true := by
  interval_cases digit <;> decide

theorem numeral_decimal (digits : ∀ digit < 16, ok (Nat.digitChar digit) = true) : Numeral ok decimal where
  reads := number_decimal
  letters _ := forall_toDigits (by decide) (by decide) fun _ bound => isWord_digitChar bound
  chars _ := forall_toDigits (by decide) (by decide) digits
  nonempty := decimal_ne_nil

theorem numeral_hexval (digits : ∀ digit < 16, ok (Nat.digitChar digit) = true) (ex : ok 'x' = true) :
    Numeral ok hexval where
  reads := number_hexval
  letters _ := forall_hexval rfl fun _ bound => isWord_digitChar bound
  chars _ := forall_hexval ex digits
  nonempty := hexval_ne_nil

/-- A number with its sign. -/
def signed (print : Nat → Text) : Int → Text
  | .ofNat value => print value
  | .negSucc value => '-' :: print (value + 1)

variable {print : Nat → Text} {f : Int → Reader β} {b : β}

theorem printed_signed (numeral : Numeral ok print) (minus : ok '-' = true) (value : Int) {toks : List Text}
    (printed : Tokens.Printed ok text toks) (after : Tokens.opens text = true) :
    Tokens.Printed ok (signed print value ++ text) (signedTokens print value ++ toks) := by
  have behind : ∀ value, Tokens.Printed ok (print value ++ text) (print value :: toks) := fun value =>
    printed.afterWord (numeral.letters value) (numeral.chars value) (numeral.nonempty value) after
  cases value with
  | ofNat value => exact behind value
  | negSucc value =>
    have sign : Tokens.Printed ok ['-'] [['-']] := Tokens.printed_literal rfl (by simp [minus])
    exact sign.append (behind (value + 1))

theorem Prints.signed (numeral : Numeral ok print) (minus : ok '-' = true) {value : Int}
    (prints : Prints ok (f value) text b) (after : Tokens.opens text = true) :
    Prints ok (integer >>= f) (signed print value ++ text) b := by
  obtain ⟨toks, printed, reads⟩ := prints
  exact ⟨_, printed_signed numeral minus value printed after, (reads_integer numeral.reads value).bind reads⟩

theorem Prints.unsigned {f : Nat → Reader β} {value : Nat} (numeral : Numeral ok print)
    (prints : Prints ok (f value) text b) (after : Tokens.opens text = true) :
    PrintsFrom ok (print value) (Readers.unsigned >>= f) (print value ++ text) b := by
  obtain ⟨toks, printed, reads⟩ := prints
  refine ⟨toks, ?_, (reads_unsigned (numeral.reads value)).bind reads⟩
  exact printed.afterWord (numeral.letters value) (numeral.chars value) (numeral.nonempty value) after

theorem Numeral.ne (numeral : Numeral ok print) {tok : Text} (none : number tok = none) (value : Nat) :
    print value ≠ tok := by
  rintro rfl
  rw [numeral.reads] at none
  cases none

/-! ### Arguments of a call -/

/-- An argument with the comma before it. -/
def argument : Reader Int := do
  expect ",".toList
  integer

theorem reads_argument (numeral : Numeral ok print) (value : Int) :
    Reads argument ([','] :: signedTokens print value) value :=
  (reads_accept [[',']]).bind (reads_integer numeral.reads value)

/-- Behind each argument there is the comma of the next one, or what closes the list. -/
theorem printed_arguments (numeral : Numeral ok print) (minus : ok '-' = true) (comma : ", ".toList.all ok = true)
    {toks : List Text} (printed : Tokens.Printed ok text toks) (after : Tokens.opens text = true) (l : List Int) :
    Tokens.Printed ok (l.flatMap (fun a => ", ".toList ++ signed print a) ++ text)
        (l.flatMap (fun a => [','] :: signedTokens print a) ++ toks) ∧
      Tokens.opens (l.flatMap (fun a => ", ".toList ++ signed print a) ++ text) = true := by
  induction l with
  | nil => exact ⟨printed, after⟩
  | cons a l ih =>
    have first : Tokens.Printed ok ", ".toList [[',']] := Tokens.printed_literal rfl comma
    refine ⟨?_, rfl⟩
    simp only [List.flatMap_cons, List.append_assoc, List.cons_append]
    exact first.append (printed_signed numeral minus a ih.1 ih.2)

theorem reads_arguments (numeral : Numeral ok print) {closing : Text} (differs : [','] ≠ closing) (l : List Int) :
    ∀ fuel, l.length < fuel → Reads (manyFrom closing argument fuel)
      (l.flatMap (fun a => [','] :: signedTokens print a) ++ [closing]) l := by
  induction l with
  | nil =>
    intro fuel enough
    obtain ⟨fuel, rfl⟩ := Nat.exists_eq_succ_of_ne_zero (Nat.ne_of_gt enough)
    exact reads_manyFrom_nil closing argument fuel
  | cons a l ih =>
    intro fuel enough
    obtain ⟨fuel, rfl⟩ := Nat.exists_eq_succ_of_ne_zero (Nat.ne_of_gt (Nat.zero_lt_of_lt enough))
    rw [List.flatMap_cons, List.append_assoc]
    exact reads_manyFrom_cons differs (reads_argument numeral a) (ih fuel (Nat.lt_of_succ_lt_succ enough))

theorem Prints.arguments (numeral : Numeral ok print) (minus : ok '-' = true) (comma : ", ".toList.all ok = true)
    {closing : Text} {f : List Int → Reader β} {l : List Int} (prints : Prints ok (f l) text b)
    (scan : Tokens.scan (.code []) fixed = (.code [], [closing])) (chars : fixed.all ok = true)
    (opens : Tokens.opens fixed = true) (differs : [','] ≠ closing) :
    Prints ok (Readers.many closing argument >>= f)
        (l.flatMap (fun a => ", ".toList ++ Readers.signed print a) ++ (fixed ++ text)) b ∧
      Tokens.opens (l.flatMap (fun a => ", ".toList ++ Readers.signed print a) ++ (fixed ++ text)) = true := by
  obtain ⟨toks, printed, reads⟩ := prints
  have after : Tokens.opens (fixed ++ text) = true := by
    cases fixed with
    | nil => cases opens
    | cons char fixed => exact opens
  have close := (Tokens.printed_literal scan chars).append printed
  obtain ⟨all, starts⟩ := printed_arguments numeral minus comma close after l
  refine ⟨⟨_, all, ?_⟩, starts⟩
  have short : ∀ l : List Int, l.length ≤ (l.flatMap (fun a => [','] :: signedTokens print a)).length := by
    intro l
    induction l with
    | nil => exact Nat.le_refl _
    | cons a l ih =>
      simp only [List.flatMap_cons, List.length_append, List.length_cons]
      omega
  have list : Reads (Readers.many closing argument)
      (l.flatMap (fun a => [','] :: signedTokens print a) ++ [closing]) l := by
    intro rest
    refine reads_arguments numeral differs l _ ?_ rest
    have := short l
    simp only [List.length_append, List.length_cons, List.length_nil]
    omega
  rw [← List.append_assoc]
  exact list.bind reads

end

end DevFuzz.Lib.Readers
