import DevFuzz.Lib.Strings

/-! # Scanning a text from its start

The parts of a pattern for Python's `re.match` in which every repetition is followed by something of another
kind.  Then the longest repetition is the only one that can match, and the pattern can be gone through from left to
right.
-/

namespace DevFuzz.Lib.Scan

open Strings

/-- A repetition, possibly empty: what is left of the text. -/
def many (kind : Char → Bool) (text : Text) : Text := text.dropWhile kind

/-- A repetition that is not empty: what has matched, and what is left. -/
def many1 (kind : Char → Bool) (text : Text) : Option (Text × Text) :=
  if (text.takeWhile kind).isEmpty then none else some (text.takeWhile kind, text.dropWhile kind)

/-- Characters that stand for themselves. -/
def literal (pattern text : Text) : Option Text :=
  if pattern.isPrefixOf text then some (text.drop pattern.length) else none

/-- The text does not start with a character of the kind. -/
def Stops (kind : Char → Bool) (text : Text) : Prop := ∀ char ∈ text.head?, kind char = false

variable {kind : Char → Bool} {run rest pattern text : Text} {char : Char}

theorem stops_cons (kind : Char → Bool) (other : kind char = false) (rest : Text) : Stops kind (char :: rest) := by
  rintro _ ⟨⟩
  exact other

theorem stops_append (nonempty : run ≠ []) (others : ∀ char ∈ run, kind char = false) (rest : Text) :
    Stops kind (run ++ rest) := by
  cases run with
  | nil => exact absurd rfl nonempty
  | cons first run => exact stops_cons kind (others first List.mem_cons_self) _

theorem takeWhile_of_stops (stops : Stops kind text) : text.takeWhile kind = [] := by
  cases text with
  | nil => rfl
  | cons first text => exact List.takeWhile_cons_of_neg (by simp [stops first rfl])

theorem dropWhile_of_stops (stops : Stops kind text) : text.dropWhile kind = text := by
  cases text with
  | nil => rfl
  | cons first text => exact List.dropWhile_cons_of_neg (by simp [stops first rfl])

theorem many_append (all : ∀ char ∈ run, kind char = true) (stops : Stops kind rest) : many kind (run ++ rest) = rest := by
  rw [many, List.dropWhile_append_of_pos all, dropWhile_of_stops stops]

theorem many_of_stops (stops : Stops kind text) : many kind text = text := dropWhile_of_stops stops

theorem many1_append (nonempty : run ≠ []) (all : ∀ char ∈ run, kind char = true) (stops : Stops kind rest) :
    many1 kind (run ++ rest) = some (run, rest) := by
  have matched : (run ++ rest).takeWhile kind = run := by
    rw [List.takeWhile_append_of_pos all, takeWhile_of_stops stops, List.append_nil]
  have left : (run ++ rest).dropWhile kind = rest := many_append all stops
  rw [many1, matched, left, if_neg (by simpa using nonempty)]

theorem many1_of_stops (stops : Stops kind text) : many1 kind text = none := by
  rw [many1, takeWhile_of_stops stops]
  rfl

theorem literal_append (pattern rest : Text) : literal pattern (pattern ++ rest) = some rest := by
  rw [literal, if_pos (List.isPrefixOf_iff_prefix.mpr (List.prefix_append pattern rest)), List.drop_left]

/-- A text that starts differently. -/
theorem literal_of_stops (first : pattern.head? = some char) (stops : Stops (· == char) text) : literal pattern text = none := by
  refine if_neg fun isPrefix => ?_
  obtain ⟨rest, rfl⟩ := List.isPrefixOf_iff_prefix.mp isPrefix
  have differs := stops char (by rw [List.head?_append, first]; rfl)
  simp at differs

theorem decimal_isDigit (value : Nat) : ∀ char ∈ decimal value, char.isDigit = true :=
  fun _ member => Nat.isDigit_of_mem_toDigits (by decide) (by decide) member

end DevFuzz.Lib.Scan
