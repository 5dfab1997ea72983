import DevFuzz.PeX.Isolation

/-! # Address windows of the BARs

A BAR of `size` bytes at `base` decodes the addresses from `base` to `base + size - 1`.
The plugin computes the upper bound with the low four bits cleared, so it stops at
`base + size - 16` (`exactAt_iff`).
-/

namespace DevFuzz.PeX

/-! ## Windows -/

section

variable (p : Plugin) (s : State)

/-- The number of bytes that a mask leaves open. -/
def barSize (j : Fin 6) : Nat := 2 ^ 32 - (p.barConfiguration j).range.toNat

/-- The BAR has been given an address. -/
def Placed (j : Fin 6) : Prop :=
  s.bar j ≠ 0xffffffff ∧ s.bar j ≠ 0 ∧ (s.bar j).setWidth 64 ≠ (p.barConfiguration j).type

/-- The address lies in the window of the BAR. -/
def Window (j : Fin 6) (a : BitVec 64) : Prop :=
  Placed p s j ∧ (getBarLowAddr s j).toNat ≤ a.toNat ∧ a.toNat < (getBarLowAddr s j).toNat + barSize p j

end

/-- A BAR that has been programmed, among five others. -/
structure ProgrammedBar where
  plugin : Plugin
  state : State
  index : Fin 6
  base : Nat
  size : Nat
  masks : ∀ j, (plugin.barConfiguration j).range.toNat < 2 ^ 32
  mmioOrPio : (plugin.barConfiguration index).type = 0 ∨ (plugin.barConfiguration index).type = 1
  powerOfTwo : ∃ k, size = 2 ^ k
  size_le : 16 ≤ size
  mask : (plugin.barConfiguration index).range.toNat + size = 2 ^ 32
  value : (state.bar index).toNat = base
  multiple : size ∣ base
  nonzero : base ≠ 0
  fits : base + size ≤ 2 ^ 32

namespace ProgrammedBar

variable (b : ProgrammedBar)

/-- Another BAR of the same type decodes the address. -/
def Shared (a : BitVec 64) : Prop :=
  ∃ j, j ≠ b.index ∧ (b.plugin.barConfiguration j).type = (b.plugin.barConfiguration b.index).type ∧
    Window b.plugin b.state j a

/-- What the plugin makes of the address. -/
def reported (a : BitVec 64) : Option (Fin 6) :=
  if (b.plugin.barConfiguration b.index).type = 0 then fallsIntoMMIOBar b.plugin b.state a
  else fallsIntoPIOBar b.plugin b.state a

/-- The BAR is reported for the addresses of its window, unless another one decodes the address too. -/
def ExactAt (a : BitVec 64) : Prop :=
  ¬ b.Shared a → (b.reported a = some b.index ↔ b.base ≤ a.toNat ∧ a.toNat < b.base + b.size)

end ProgrammedBar

/-! ## The bounds of the plugin -/

/-- A mask of 28 ones above four zeros. -/
theorem and_mask (x : Nat) : x &&& (2 ^ 28 - 1) <<< 4 = x / 16 % 2 ^ 28 * 16 := by
  have shifted : x &&& (2 ^ 28 - 1) <<< 4 = ((x >>> 4) &&& (2 ^ 28 - 1)) <<< 4 := by
    apply Nat.eq_of_testBit_eq
    intro i
    simp only [Nat.testBit_and, Nat.testBit_shiftLeft, Nat.testBit_shiftRight]
    by_cases low : 4 ≤ i
    · simp [low, Nat.add_sub_of_le low]
    · simp [low]
  rw [shifted, Nat.and_two_pow_sub_one_eq_mod, Nat.shiftLeft_eq, Nat.shiftRight_eq_div_pow]

/-- The low four bits and everything above 32 bits are cleared. -/
theorem toNat_and_mask (x : BitVec 64) : (x &&& 0xFFFFFFF0).toNat = x.toNat % 2 ^ 32 / 16 * 16 := by
  have mask : (0xFFFFFFF0 : BitVec 64).toNat = (2 ^ 28 - 1) <<< 4 := by decide
  rw [BitVec.toNat_and, mask, and_mask]
  omega

section

variable (p : Plugin) (s : State) (a : BitVec 64) (j : Fin 6)

/-- `barhi` -/
def barHigh : Nat := (2 ^ 64 - 1 - (p.barConfiguration j).range.toNat + (getBarLowAddr s j).toNat) % 2 ^ 32 / 16 * 16

theorem barCovers_iff :
    barCovers p s a j = true ↔
      Placed p s j ∧ (getBarLowAddr s j).toNat ≤ a.toNat ∧ a.toNat ≤ barHigh p s j := by
  have high : ((getBarLowAddr s j + ~~~ (p.barConfiguration j).range) &&& 0xFFFFFFF0).toNat = barHigh p s j := by
    rw [toNat_and_mask, BitVec.toNat_add, BitVec.toNat_not, barHigh]
    omega
  simp only [barCovers, decide_eq_true_eq, BitVec.le_def, high, Placed, and_assoc]

theorem getBarLowAddr_lt : (getBarLowAddr s j).toNat < 2 ^ 32 := by
  rw [getBarLowAddr, toNat_and_mask]
  omega

variable {p s a j}

/-- What the plugin takes for an address of the BAR is one. -/
theorem window_of_covers (mask : (p.barConfiguration j).range.toNat < 2 ^ 32) (covers : barCovers p s a j = true) :
    Window p s j a := by
  obtain ⟨placed, low, high⟩ := (barCovers_iff p s a j).mp covers
  have := getBarLowAddr_lt s j
  refine ⟨placed, low, ?_⟩
  unfold barHigh at high
  unfold barSize
  omega

end

namespace ProgrammedBar

variable (b : ProgrammedBar)

theorem sixteen : ∃ n m, b.base = 16 * n ∧ b.size = 16 * m := by
  obtain ⟨k, power⟩ := b.powerOfTwo
  have large : 4 ≤ k := by
    by_contra small
    have := Nat.pow_lt_pow_right (show 1 < 2 by decide) (Nat.not_le.mp small)
    have := b.size_le
    omega
  have divides : 16 ∣ b.size := power ▸ Nat.pow_dvd_pow 2 large
  obtain ⟨m, size⟩ := divides
  obtain ⟨n, base⟩ := (Dvd.intro m size.symm).trans b.multiple
  exact ⟨n, m, base, size⟩

theorem low : (getBarLowAddr b.state b.index).toNat = b.base := by
  obtain ⟨n, m, base, size⟩ := b.sixteen
  have := b.fits
  have := b.size_le
  rw [getBarLowAddr, toNat_and_mask, BitVec.toNat_setWidth, b.value]
  omega

theorem high : barHigh b.plugin b.state b.index = b.base + b.size - 16 := by
  obtain ⟨n, m, base, size⟩ := b.sixteen
  have := b.fits
  have := b.size_le
  have := b.mask
  rw [barHigh, b.low]
  omega

theorem placed : Placed b.plugin b.state b.index := by
  obtain ⟨n, m, base, size⟩ := b.sixteen
  have nonzero := b.nonzero
  have value := b.value
  refine ⟨?_, ?_, ?_⟩
  · intro ones
    rw [ones] at value
    simp at value
    omega
  · intro zero
    rw [zero] at value
    simp at value
    omega
  · intro type
    have same := congrArg BitVec.toNat type
    rw [BitVec.toNat_setWidth, value] at same
    have := b.fits
    rcases b.mmioOrPio with mmio | pio
    · rw [mmio] at same
      simp at same
      omega
    · rw [pio] at same
      simp at same
      omega

theorem covers_iff (a : BitVec 64) :
    barCovers b.plugin b.state a b.index = true ↔ b.base ≤ a.toNat ∧ a.toNat ≤ b.base + b.size - 16 := by
  rw [barCovers_iff, b.low, b.high]
  exact and_iff_right b.placed

/-- Where no other BAR of its type decodes the address, the BAR is reported if its own test succeeds. -/
theorem reported_iff {a : BitVec 64} (alone : ¬ b.Shared a) :
    b.reported a = some b.index ↔ barCovers b.plugin b.state a b.index = true := by
  have found : ∀ type, (b.plugin.barConfiguration b.index).type = type →
      (((List.finRange 6).find? fun j => (b.plugin.barConfiguration j).type = type && barCovers b.plugin b.state a j) =
        some b.index ↔ barCovers b.plugin b.state a b.index = true) := by
    rintro type rfl
    constructor
    · intro first
      have test := List.find?_some first
      simpa using test
    · intro covers
      cases first : List.find? _ (List.finRange 6) with
      | none =>
        have test := List.find?_eq_none.mp first b.index (List.mem_finRange _)
        simp [covers] at test
      | some j =>
        -- the loop stops at the first BAR that passes the test, which can be no other one
        have test := List.find?_some first
        simp only [Bool.and_eq_true, decide_eq_true_eq] at test
        by_contra other
        exact alone ⟨j, fun same => other (congrArg some same), test.1, window_of_covers (b.masks j) test.2⟩
  rw [reported]
  split_ifs with mmio
  · exact found 0 mmio
  · exact found 1 (b.mmioOrPio.resolve_left mmio)

end ProgrammedBar

/-- The decoding is exact but for the last 15 bytes of the window. -/
theorem exactAt_iff (b : ProgrammedBar) (a : BitVec 64) :
    b.ExactAt a ↔ b.Shared a ∨ ¬ (b.base + b.size - 16 < a.toNat ∧ a.toNat < b.base + b.size) := by
  have := b.size_le
  by_cases shared : b.Shared a
  · exact iff_of_true (fun alone => absurd shared alone) (.inl shared)
  · rw [or_iff_right shared]
    constructor
    · intro exact_
      have decoded := (exact_ shared).symm.trans ((b.reported_iff shared).trans (b.covers_iff a))
      omega
    · intro outside _
      rw [b.reported_iff shared, b.covers_iff]
      omega

/-- An MMIO BAR of 512 KiB at 0xfeb80000. -/
def networkBar : ProgrammedBar where
  plugin := defaultPlugin
  state := freshState.setReg 0x05 0xfeb80000
  index := memoryIndex
  base := 0xfeb80000
  size := 0x80000
  masks := by decide
  mmioOrPio := memoryIndex_type
  powerOfTwo := ⟨19, rfl⟩
  size_le := by decide
  mask := by decide
  value := by decide
  multiple := by decide
  nonzero := by decide
  fits := by decide

/-- The last register of the window is not decoded. -/
theorem not_exactAt_networkBar : ¬ networkBar.ExactAt 0xfebffffc := by
  intro exact_
  have missed : networkBar.reported 0xfebffffc = none := by decide
  have alone : ¬ networkBar.Shared 0xfebffffc := by
    have unplaced : ∀ j, j ≠ networkBar.index →
        (networkBar.plugin.barConfiguration j).type = (networkBar.plugin.barConfiguration networkBar.index).type →
        networkBar.state.bar j = 0 := by decide
    rintro ⟨j, other, type, ⟨-, nonzero, -⟩, -⟩
    exact nonzero (unplaced j other type)
  have decoded := (exact_ alone).mpr (by decide)
  rw [missed] at decoded
  cases decoded

end DevFuzz.PeX
