import DevFuzz.Lib.Strings

/-! # Lines and substitutions

Python's `readlines`, and `re.sub` with a literal pattern.  A pattern without a newline is found in a text if it is
found in one of its lines (`search_append_newline`), and a pattern that cannot overlap with itself is replaced where it
is put (`reSub_once`).
-/

namespace DevFuzz.Lib.Lines

open Strings

/-! ## Lines -/

/-- The lines of a text, each with its newline. -/
def readlines : Text → List Text
  | [] => []
  | char :: text =>
    if char = '\n' then [char] :: readlines text
    else match readlines text with
      | [] => [[char]]
      | line :: lines => (char :: line) :: lines

theorem flatten_readlines (text : Text) : (readlines text).flatten = text := by
  induction text with
  | nil => rfl
  | cons char text ih =>
    by_cases newline : char = '\n'
    · simp [readlines, newline, ih]
    · cases lines : readlines text with
      | nil =>
        rw [lines] at ih
        simpa [readlines, newline, lines] using ih
      | cons line rest =>
        rw [lines] at ih
        simpa [readlines, newline, lines] using ih

/-- The text is empty or ends with a newline. -/
def Ends (text : Text) : Prop := ∀ char ∈ text.getLast?, char = '\n'

theorem ends_nil : Ends [] := nofun

theorem ends_literal {text : Text} (last : text.getLast? = some '\n') : Ends text := by simp [Ends, last]

/-- Whatever is before a text that ends with a newline. -/
theorem ends_append {text : Text} (last : text.getLast? = some '\n') (before : Text) : Ends (before ++ text) := by
  simp [Ends, List.getLast?_append, last]

theorem ends_flatten {pieces : List Text} {piece : Text} (final : pieces.getLast? = some piece)
    (last : piece.getLast? = some '\n') : Ends pieces.flatten := by
  obtain ⟨front, rfl⟩ := List.getLast?_eq_some_iff.mp final
  rw [List.flatten_append, List.flatten_singleton]
  exact ends_append last _

theorem Ends.append {left right : Text} (first : Ends left) (second : Ends right) : Ends (left ++ right) := by
  cases right with
  | nil => simpa using first
  | cons char right =>
    unfold Ends
    rwa [List.getLast?_append_of_ne_nil _ (List.cons_ne_nil char right)]

theorem ends_flatMap {α : Type} {l : List α} {f : α → Text} (each : ∀ a ∈ l, Ends (f a)) : Ends (l.flatMap f) := by
  induction l with
  | nil => exact ends_nil
  | cons a l ih =>
    rw [List.forall_mem_cons] at each
    exact each.1.append (ih each.2)

theorem Ends.tail {char : Char} {text : Text} (ends : Ends (char :: text)) : Ends text := by
  cases text with
  | nil => exact ends_nil
  | cons next text => simpa [Ends] using ends

theorem readlines_append {left : Text} (ends : Ends left) (right : Text) :
    readlines (left ++ right) = readlines left ++ readlines right := by
  induction left with
  | nil => rfl
  | cons char left ih =>
    by_cases newline : char = '\n'
    · simp [readlines, newline, ih ends.tail]
    · cases lines : readlines left with
      | nil =>
        -- a single character that ends the text is a newline
        have empty : left = [] := by rw [← flatten_readlines left, lines]; rfl
        subst empty
        exact absurd (ends char rfl) newline
      | cons line rest => simp [readlines, newline, ih ends.tail, lines]

theorem exists_of_mem_readlines {text line : Text} (ends : Ends text) (member : line ∈ readlines text) :
    ∃ start, line = start ++ ['\n'] := by
  induction text generalizing line with
  | nil => cases member
  | cons char text ih =>
    by_cases newline : char = '\n'
    · simp only [readlines, newline, if_true, List.mem_cons] at member
      rcases member with rfl | member
      · exact ⟨[], rfl⟩
      · exact ih ends.tail member
    · cases lines : readlines text with
      | nil =>
        have empty : text = [] := by rw [← flatten_readlines text, lines]; rfl
        subst empty
        exact absurd (ends char rfl) newline
      | cons first rest =>
        simp only [readlines, newline, if_false, lines, List.mem_cons] at member
        rw [lines] at ih
        rcases member with rfl | member
        · obtain ⟨start, rfl⟩ := ih ends.tail List.mem_cons_self
          exact ⟨char :: start, rfl⟩
        · exact ih ends.tail (List.mem_cons_of_mem _ member)

/-- What is printed without a newline goes to the end of the last line. -/
theorem readlines_concat (before : Text) {text : Text} (single : '\n' ∉ text) :
    ∃ lines start, readlines (before ++ (text ++ ['\n'])) = lines ++ [start ++ (text ++ ['\n'])] := by
  induction before with
  | nil =>
    refine ⟨[], [], ?_⟩
    induction text with
    | nil => rfl
    | cons char text ih =>
      rw [List.mem_cons, not_or] at single
      have rest := ih single.2
      simp only [List.nil_append] at rest ⊢
      simp [readlines, Ne.symm single.1, rest]
  | cons char before ih =>
    obtain ⟨lines, start, found⟩ := ih
    by_cases newline : char = '\n'
    · exact ⟨[char] :: lines, start, by simp [readlines, newline, found]⟩
    · cases lines with
      | nil => exact ⟨[], char :: start, by simp [readlines, newline, found]⟩
      | cons line lines => exact ⟨(char :: line) :: lines, start, by simp [readlines, newline, found]⟩

theorem infix_of_mem_readlines {text line : Text} (member : line ∈ readlines text) : line <:+: text := by
  obtain ⟨left, right, split⟩ := List.append_of_mem member
  refine ⟨left.flatten, right.flatten, ?_⟩
  rw [← flatten_readlines text, split]
  simp

/-! ## Searching in lines -/

theorem search_of_part {pattern text part : Text} (absent : search pattern text = false) (inside : part <:+: text) :
    search pattern part = false := by
  rw [← Bool.not_eq_true, search_iff_isInfix] at absent ⊢
  exact fun found => absent (found.trans inside)

theorem search_of_notMem {pattern text : Text} {char : Char} (member : char ∈ pattern) (absent : char ∉ text) :
    search pattern text = false := by
  rw [← Bool.not_eq_true, search_iff_isInfix]
  exact fun found => absent (found.subset member)

theorem search_append_newline {pattern right : Text} (left : Text) (single : '\n' ∉ pattern)
    (first : search pattern left = false) (second : search pattern right = false) :
    search pattern (left ++ '\n' :: right) = false := by
  rw [← Bool.not_eq_true, search_iff_isInfix] at first second ⊢
  rintro ⟨before, after, split⟩
  rcases List.append_eq_append_iff.mp split with ⟨rest, inLeft, -⟩ | ⟨rest, reaches, others⟩
  · exact first ⟨before, rest, inLeft.symm⟩
  · rcases List.append_eq_append_iff.mp reaches with ⟨part, inLeft, whole⟩ | ⟨part, -, later⟩
    · -- a match that starts in the left part ends there, for it has no newline
      cases rest with
      | nil => exact first ⟨before, [], by simp [inLeft, whole]⟩
      | cons char rest =>
        obtain ⟨rfl, -⟩ := List.cons.inj others
        exact single (by simp [whole])
    · subst later
      cases part with
      | nil =>
        cases pattern with
        | nil => exact first (List.nil_infix)
        | cons char pattern =>
          obtain ⟨rfl, -⟩ := List.cons.inj others
          exact single List.mem_cons_self
      | cons char part =>
        obtain ⟨-, same⟩ := List.cons.inj others
        exact second ⟨part, after, same.symm⟩

theorem search_append_ends {pattern left right : Text} (ends : Ends left) (single : '\n' ∉ pattern)
    (first : search pattern left = false) (second : search pattern right = false) :
    search pattern (left ++ right) = false := by
  rcases List.eq_nil_or_concat left with rfl | ⟨front, last, rfl⟩
  · exact second
  · obtain rfl : last = '\n' := ends last (by simp)
    rw [List.concat_eq_append] at first ⊢
    rw [List.append_assoc]
    exact search_append_newline front single (search_of_part first (List.prefix_append _ _).isInfix) second

/-! ## Substitution -/

/-- `re.sub(pattern, repl, text)` for a literal, non-empty pattern.  A backslash in `repl` would start an escape
    sequence, and is not modelled. -/
def reSub (pattern repl text : Text) : Option Text :=
  if '\\' ∈ repl then none else some (repl.intercalate (split pattern text))

theorem splitFrom_of_absent {char : Char} {pattern text : Text} (absent : search (char :: pattern) text = false)
    (field : Text) : splitFrom (char :: pattern) 0 field text = [field.reverse ++ text] := by
  induction text generalizing field with
  | nil => simp [splitFrom]
  | cons head text ih =>
    rw [search, Bool.or_eq_false_iff] at absent
    rw [splitFrom, if_neg (by simp [absent.1]), ih absent.2]
    simp

/-- A pattern that cannot overlap with itself splits a text where it is put. -/
theorem splitFrom_once {char : Char} {pattern before : Text} (after : Text) (once : char ∉ pattern)
    (absent : search (char :: pattern) before = false) (field : Text) :
    splitFrom (char :: pattern) 0 field (before ++ (char :: pattern ++ after)) =
      (field.reverse ++ before) :: split (char :: pattern) after := by
  induction before generalizing field with
  | nil => simpa using splitFrom_separator pattern after field
  | cons head before ih =>
    have here : ¬ (char :: pattern).isPrefixOf (head :: (before ++ (char :: pattern ++ after))) = true := by
      intro found
      -- then it would be found here, and not where it is put
      have later := findFrom_append after once absent
      rw [List.cons_append, findFrom, if_pos found] at later
      have length := congrArg List.length (Option.some.inj later)
      simp only [List.length_cons, List.length_append] at length
      omega
    rw [search, Bool.or_eq_false_iff] at absent
    rw [List.cons_append, splitFrom, if_neg here, ih absent.2]
    simp

theorem reSub_once {char : Char} {pattern tail repl before after : Text} (shape : pattern = char :: tail)
    (once : char ∉ tail) (literal : '\\' ∉ repl) (first : search pattern before = false)
    (second : search pattern after = false) :
    reSub pattern repl (before ++ (pattern ++ after)) = some (before ++ (repl ++ after)) := by
  subst shape
  rw [reSub, if_neg literal, split, splitFrom_once after once first, split, splitFrom_of_absent second]
  simp [List.intercalate]

end DevFuzz.Lib.Lines
