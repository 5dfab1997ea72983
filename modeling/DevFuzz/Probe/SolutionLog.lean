import DevFuzz.Lib.Bytes
import DevFuzz.Lib.Strings

/-! # The solution log of PeX

What S2E knows about a symbolic MMIO read and what `PeX::generateTestCase`
prints about it once the solver has found a solution: the name of the symbolic
array on one line and its solved bytes, in index order, on one line each.
-/

namespace DevFuzz.Probe

open DevFuzz.Lib.Bytes DevFuzz.Lib.Strings

/-! ## Symbolic values -/

/-- `ConcatExpr::create`: `high` stands above a value of `width` bytes. -/
def concat (high width low : Nat) : Nat := high * 256 ^ width + low

/-- `ReadExpr::createTempRead`: the value an array of solved bytes stands for.
    The four widths of a device access; `none` is `pabort("invalid width")`. -/
def createTempRead : List UInt8 → Option Nat
  | [b0] => some b0.toNat
  | [b0, b1] => some (concat b1.toNat 1 b0.toNat)
  | [b0, b1, b2, b3] =>
    some (concat b3.toNat 3 (concat b2.toNat 2 (concat b1.toNat 1 b0.toNat)))
  | [b0, b1, b2, b3, b4, b5, b6, b7] =>
    some (concat b7.toNat 7 (concat b6.toNat 6 (concat b5.toNat 5 (concat b4.toNat 4
      (concat b3.toNat 3 (concat b2.toNat 2 (concat b1.toNat 1 b0.toNat)))))))
  | _ => none

/-! ## Names -/

/-- A symbolic MMIO read: what `createExpressionMMIO` puts into the name, and the two
    counters `getUniqueVarName` adds. -/
structure MmioRead where
  bar : Nat
  baraddr : Nat
  size : Nat
  pc : Nat
  nextSymbVarId : Nat
  lastSymbolicId : Nat
  deriving DecidableEq, Repr

/-- `PeX::createExpressionMMIO`: the name given to the symbolic value. -/
def createExpressionMMIO (read : MmioRead) : Text :=
  "pex symdev bar ".toList ++ decimal read.bar ++ " mmio @ ".toList ++ hexval read.baraddr ++
    " size ".toList ++ decimal read.size ++ " pc=".toList ++ hexval read.pc

/-- `isalnum` -/
def isAlnum (char : Char) : Bool := char.isAlphanum

/-- Every character but letters, digits and `_` becomes `_`. -/
def filtered (char : Char) : Char := if !isAlnum char && char != '_' then '_' else char

/-- `S2EExecutionState::getUniqueVarName` -/
def getUniqueVarName (nextSymbVarId lastSymbolicId : Nat) (name : Text) : Text :=
  let original := 'v' :: decimal nextSymbVarId ++ ['_'] ++ name ++ ['_'] ++ decimal lastSymbolicId
  original.map filtered

def MmioRead.name (read : MmioRead) : Text :=
  getUniqueVarName read.nextSymbVarId read.lastSymbolicId ( createExpressionMMIO read)

/-! ## Printing -/

/-- `getDebugStream(state) << text << "\n"` of the plugin `PeX`. -/
def debugLine (text : Text) : Text := ['P', 'e', 'X', ':', ' '] ++ text ++ ['\n']

/-- `PeX::generateTestCase` on one solved object: the lines between `Solved!` and
    `End of solution` that belong to it. -/
def generateTestCase (read : MmioRead) (bytes : List UInt8) : List Text :=
  debugLine read.name :: bytes.map fun byte => debugLine (hexval byte.toNat)

/-! ## What the filter leaves of a name -/

theorem digitChar_alnum {digit : Nat} (bound : digit < 16) :
    isAlnum (Nat.digitChar digit) = true := by
  interval_cases digit <;> decide

theorem filtered_toDigits {base : Nat} (low : 1 < base) (high : base ≤ 16) (value : Nat) :
    (Nat.toDigits base value).map filtered = Nat.toDigits base value := by
  conv_rhs => rw [← List.map_id (Nat.toDigits base value)]
  apply List.map_congr_left
  intro char member
  obtain ⟨digit, bound, rfl⟩ := mem_toDigits low member
  simp [filtered, digitChar_alnum (by omega : digit < 16)]

theorem filtered_decimal (value : Nat) : (decimal value).map filtered = decimal value :=
  filtered_toDigits (by decide) (by decide) value

theorem filtered_hexval (value : Nat) : (hexval value).map filtered = hexval value := by
  have zero : filtered '0' = '0' := by decide
  have ex : filtered 'x' = 'x' := by decide
  have digits : (Nat.toDigits 16 value).map filtered = Nat.toDigits 16 value :=
    filtered_toDigits (by decide) (by decide) value
  simp only [hexval, List.map_cons, zero, ex, digits]

/-- The part of the name before the three underscores that stand for ` @ `. -/
def MmioRead.nameHead (read : MmioRead) : Text :=
  'v' :: decimal read.nextSymbVarId ++ "_pex_symdev_bar_".toList ++ decimal read.bar ++
    "_mmio".toList

/-- The part of the name after the three underscores. -/
def MmioRead.nameTail (read : MmioRead) : Text :=
  hexval read.baraddr ++ "_size_".toList ++ decimal read.size ++ "_pc_".toList ++
    hexval read.pc ++ ['_'] ++ decimal read.lastSymbolicId

/-- The name of a read whose number of the BAR and address have the text `kind` between them. -/
theorem MmioRead.uniqueVarName_eq (read : MmioRead) {kind text : Text} (known : kind.map filtered = text) :
    getUniqueVarName read.nextSymbVarId read.lastSymbolicId
        ("pex symdev bar ".toList ++ decimal read.bar ++ kind ++ hexval read.baraddr ++ " size ".toList ++
          decimal read.size ++ " pc=".toList ++ hexval read.pc) =
      'v' :: decimal read.nextSymbVarId ++ "_pex_symdev_bar_".toList ++ decimal read.bar ++ text ++ read.nameTail := by
  unfold getUniqueVarName MmioRead.nameTail
  simp only [List.map_append, List.map_cons, filtered_decimal, filtered_hexval, known]
  -- the numerals are opaque from here on: only the fixed text is left to filter
  generalize decimal read.nextSymbVarId = varId
  generalize decimal read.bar = bar
  generalize hexval read.baraddr = baraddr
  generalize decimal read.size = size
  generalize hexval read.pc = pc
  generalize decimal read.lastSymbolicId = symbolicId
  simp [filtered, isAlnum]

theorem MmioRead.name_eq (read : MmioRead) :
    read.name = read.nameHead ++ "___".toList ++ read.nameTail := by
  have known : " mmio @ ".toList.map filtered = "_mmio".toList ++ "___".toList := by simp [filtered, isAlnum]
  refine (read.uniqueVarName_eq known).trans ?_
  rw [MmioRead.nameHead, List.append_assoc _ "_mmio".toList]

end DevFuzz.Probe
