import DevFuzz.PeX.ConfigSpace

/-! # Configuration cycles for other functions

`Target` is what a value of CONFIG_ADDRESS means on a PCI bus: a bus, one of 32
devices and one of eight functions.  `isolated_iff` says for which values the
following accesses stay away from the symbolic device.
-/

namespace DevFuzz.PeX

/-! ## What the guest addresses -/

structure Target where
  bus : BitVec 8
  device : BitVec 5
  function : BitVec 3
  deriving DecidableEq, Repr

def target (value : BitVec 32) : Target where
  bus := value.extractLsb' 16 8
  device := value.extractLsb' 11 5
  function := value.extractLsb' 8 3

/-- The value addresses one of the functions of the symbolic device. -/
def Addressed (p : Plugin) (value : BitVec 32) : Prop :=
  (target value).bus = p.nBus ∧ (target value).device.setWidth 8 = p.nDevice ∧
    p.nFunction.getLsbD (target value).function.toNat = true

instance (p : Plugin) (value : BitVec 32) : Decidable (Addressed p value) := inferInstanceAs (Decidable (_ ∧ _ ∧ _))

/-- The test of `isOurDevice`, in terms of the target: the function is taken modulo 4. -/
def Claimed (p : Plugin) (value : BitVec 32) : Prop :=
  (target value).bus = p.nBus ∧ (target value).device.setWidth 8 = p.nDevice ∧
    p.nFunction.getLsbD ((target value).function.toNat % 4) = true

section

variable (value : BitVec 32)

/-- A shift and a mask of `len` ones take out a bit field. -/
theorem toNat_shift_and (shift : Nat) {len : Nat} (short : len ≤ 32) :
    ((value >>> shift) &&& BitVec.ofNat 32 (2 ^ len - 1)).toNat = (value.extractLsb' shift len).toNat := by
  have mask : 2 ^ len - 1 < 2 ^ 32 :=
    Nat.lt_of_lt_of_le (Nat.sub_lt (Nat.two_pow_pos len) Nat.one_pos) (Nat.pow_le_pow_right (by decide) short)
  rw [BitVec.toNat_and, BitVec.toNat_ushiftRight, BitVec.toNat_ofNat, Nat.mod_eq_of_lt mask,
    Nat.and_two_pow_sub_one_eq_mod, BitVec.extractLsb'_toNat]

theorem busAddr_eq : busAddr value = (target value).bus := by
  apply BitVec.eq_of_toNat_eq
  have field := toNat_shift_and value 16 (show 8 ≤ 32 by decide)
  exact (BitVec.toNat_setWidth 8 _).trans ((congrArg (· % 2 ^ 8) field).trans (Nat.mod_eq_of_lt (BitVec.isLt _)))

theorem devAddr_eq : devAddr value = (target value).device.setWidth 8 := by
  apply BitVec.eq_of_toNat_eq
  have field := toNat_shift_and value 11 (show 5 ≤ 32 by decide)
  rw [devAddr, BitVec.toNat_setWidth, BitVec.toNat_setWidth]
  exact congrArg (· % 2 ^ 8) field

theorem funAddr_eq : (funAddr value).toNat = (target value).function.toNat % 4 := by
  have field := toNat_shift_and value 8 (show 2 ≤ 32 by decide)
  have parts : (value.extractLsb' 8 2).toNat = (value.extractLsb' 8 3).toNat % 4 := by
    simp only [BitVec.extractLsb'_toNat]
    omega
  rw [funAddr, BitVec.toNat_setWidth, target]
  exact (congrArg (· % 2 ^ 8) (field.trans parts)).trans (Nat.mod_eq_of_lt (by omega))

end

/-- `(1u << function) & n_function` tests a bit. -/
theorem shifted_and_ne_zero (mask bit : BitVec 8) (low : bit.toNat < 8) :
    (1#32 <<< bit) &&& mask.setWidth 32 ≠ 0 ↔ mask.getLsbD bit.toNat = true := by
  have power : 1#32 <<< bit = BitVec.twoPow 32 bit.toNat := rfl
  rw [power, BitVec.and_comm, BitVec.and_twoPow, BitVec.getLsbD_setWidth]
  have inside : bit.toNat < 32 := by omega
  by_cases set : mask.getLsbD bit.toNat = true
  · simp only [set, inside, decide_true, Bool.and_self, if_true, iff_true]
    intro zero
    have bits := congrArg (BitVec.getLsbD · bit.toNat) zero
    simp [inside] at bits
  · simp [set]

theorem isOurDevice_iff (p : Plugin) (s : State) : isOurDevice p s = true ↔ Claimed p s.configAddress := by
  have low : (funAddr s.configAddress).toNat < 8 := by
    rw [funAddr_eq]
    omega
  rw [isOurDevice, decide_eq_true_iff, shifted_and_ne_zero _ _ low, busAddr_eq, devAddr_eq, funAddr_eq, Claimed]

/-! ## A cycle -/

def addressPort : Expr 16 := .constant 0xcf8

/-- The port 0xcfc + k, as it is written to. -/
def dataPort (k : Fin 4) : Expr 16 := .constant (0xcfc + BitVec.ofNat 16 k)

/-- The port 0xcfc + k, as it is read from. -/
def dataAddress (k : Fin 4) : BitVec 64 := 0xcfc + BitVec.ofNat 64 k

section

variable (p : Plugin) (s : State) (value : BitVec 32)

def select : State := slotOnPortAccess p s addressPort (w := .dword) (.constant value) true

theorem select_eq : select p s value = { s with configAddress := value } := by
  simp [select, slotOnPortAccess, addressPort, Expr.concrete, Width.bits, Width.size]

@[simp] theorem select_configAddress : (select p s value).configAddress = value := by rw [select_eq]

@[simp] theorem select_header : (select p s value).header = s.header := by rw [select_eq]

theorem fallsIntoPIOBar_congr {s t : State} (same : ∀ i, s.bar i = t.bar i) (address : BitVec 64) :
    fallsIntoPIOBar p s address = fallsIntoPIOBar p t address := by
  have covers : ∀ i, barCovers p s address i = barCovers p t address i := by
    intro i
    unfold barCovers getBarLowAddr
    rw [same]
  simp only [fallsIntoPIOBar, covers]

theorem dataPort_range (k : Fin 4) :
    (dataPort k).concrete ≠ 0xcf8 ∧ 0xcfc ≤ (dataPort k).concrete ∧ (dataPort k).concrete ≤ 0xcff := by
  decide +revert

theorem dataAddress_range (k : Fin 4) : ¬ (dataAddress k < 0xcfc ∨ 0xcff < dataAddress k) := by
  decide +revert

theorem dataAddress_sub (k : Fin 4) : (dataAddress k - 0xcfc).toNat = k.val := by
  decide +revert

theorem slotOnPortAccess_dataPort (k : Fin 4) {w : Width} (v : Expr w.bits) :
    slotOnPortAccess p s (dataPort k) v true = writeData p s w v.concrete := by
  obtain ⟨other, range⟩ := dataPort_range k
  simp only [slotOnPortAccess, Bool.not_true, Bool.false_eq_true, other, range, and_self, if_false, if_true]

theorem createExpressionPort_dataAddress (k : Fin 4) (w : Width) (native : BitVec 64)
    (uncovered : fallsIntoPIOBar p s (dataAddress k) = none) :
    createExpressionPort p s (dataAddress k) w native =
      if isOurDevice p s then
        match barIndex? s.reg with
        | some _ => .constant (((s.header s.reg).setWidth 64).setWidth w.bits)
        | none => .constant (concreteReg s s.reg k.val w)
      else .constant (native.setWidth w.bits) := by
  simp only [createExpressionPort, uncovered, dataAddress_range, dataAddress_sub, if_false]
  cases isOurDevice p s <;> rfl

/-! ## Isolation -/

/-- The accesses that follow leave the header alone and read what is there without the plugin. -/
def Isolated : Prop :=
  (∀ k (w : Width) (v : Expr w.bits),
      (slotOnPortAccess p (select p s value) (dataPort k) v true).header = (select p s value).header) ∧
    ∀ k (w : Width) native,
      createExpressionPort p (select p s value) (dataAddress k) w native = .constant (native.setWidth w.bits)

/-- Without a device test, some write changes the register. -/
theorem exists_writeData_ne (s : State) (claimed : (barIndex? s.reg).isSome = true → isOurDevice p s = true) :
    ∃ v : BitVec 32, (writeData p s .dword (v.setWidth 64)).header ≠ s.header := by
  have narrow : ∀ v : BitVec 32, (v.setWidth 64).setWidth 32 = v := by simp
  cases bar : barIndex? s.reg with
  | none =>
    refine ⟨~~~ s.header s.reg, fun same => ?_⟩
    have here := congrFun same s.reg
    simp only [writeData, bar, State.setReg_header, Function.update_self, mergeReg, narrow] at here
    have bit := congrArg (BitVec.getLsbD · 0) here
    simp at bit
  | some i =>
    have ours : isOurDevice p s = true := claimed (by rw [bar]; rfl)
    have stored : ∀ v : BitVec 32, (writeData p s .dword (v.setWidth 64)).header = s.header → v ≠ 0xffffffff →
        v &&& ~~~ 1 = s.header (0x04 + i.val) := by
      intro v same sizing
      have here := congrFun same (0x04 + i.val)
      simpa only [writeData, bar, configBAR, ours, if_true, State.setReg_header, Function.update_self, narrow,
        sizing, if_false] using here
    by_cases two : s.header (0x04 + i.val) = 2
    · refine ⟨4, fun same => ?_⟩
      have four := (stored 4 same (by decide)).trans two
      exact absurd four (by decide)
    · exact ⟨2, fun same => two (stored 2 same (by decide)).symm⟩

/-- The configuration cycles of a value that does not address the symbolic device are kept from it
    exactly for the BARs of a function that the device test tells apart, as long as no BAR lies over
    the data ports. -/
theorem isolated_iff :
    (¬ Addressed p value → Isolated p s value) ↔
      Addressed p value ∨ ((barIndex? (regAddr value)).isSome = true ∧ ¬ Claimed p value ∧
        ∀ k, fallsIntoPIOBar p s (dataAddress k) = none) := by
  rw [← or_iff_not_imp_left]
  refine or_congr_right ?_
  have claimed : isOurDevice p (select p s value) = true ↔ Claimed p value := by
    rw [isOurDevice_iff, select_configAddress]
  have covers := fallsIntoPIOBar_congr p fun i => congrFun (select_header p s value) (0x04 + i.val)
  constructor
  · rintro ⟨writes, reads⟩
    have kept : (barIndex? (regAddr value)).isSome = true ∧ ¬ Claimed p value := by
      by_contra open_
      obtain ⟨v, changed⟩ := exists_writeData_ne p (select p s value) fun bar =>
        claimed.mpr (by_contra fun other => open_ ⟨by simpa [State.reg] using bar, other⟩)
      have same := writes 0 .dword (.constant v)
      rw [slotOnPortAccess_dataPort] at same
      exact changed same
    refine ⟨kept.1, kept.2, fun k => ?_⟩
    cases covered : fallsIntoPIOBar p s (dataAddress k) with
    | none => rfl
    | some i =>
      have read := reads k .byte 0
      rw [createExpressionPort, covers, covered] at read
      cases read
  · rintro ⟨bar, other, uncovered⟩
    have foreign : isOurDevice p (select p s value) = false := by
      rw [← Bool.not_eq_true, claimed]
      exact other
    constructor
    · intro k w v
      obtain ⟨i, bar⟩ := Option.isSome_iff_exists.mp bar
      have selected : barIndex? (select p s value).reg = some i := by simpa [State.reg] using bar
      rw [slotOnPortAccess_dataPort, writeData, selected]
      simp [configBAR, foreign]
    · intro k w native
      rw [createExpressionPort_dataAddress _ _ _ _ _ ((covers _).trans (uncovered k)), foreign]
      rfl

end

/-- The device of the default configuration: bus 0, device 0x1b, function 0, with one port BAR. -/
def defaultPlugin : Plugin where
  nBus := 0x00
  nDevice := 0x1b
  nFunction := 0x01
  barConfiguration := fun i => if i = 0 then ⟨1, 0xfffff800⟩ else ⟨0, 0xfff80000⟩
  regVid := 0x8086
  regPid := 0x100e
  regSubVid := 0x8086
  regSubPid := 0x100e
  regClass := 0x02000000
  regBhlc := 0
  useCapability := false

/-- Its port BAR. -/
def portIndex : Fin 6 := 0

/-- The first of its memory BARs. -/
def memoryIndex : Fin 6 := 1

theorem portIndex_type :
    (defaultPlugin.barConfiguration portIndex).type = 0 ∨ (defaultPlugin.barConfiguration portIndex).type = 1 :=
  .inr rfl

theorem memoryIndex_type :
    (defaultPlugin.barConfiguration memoryIndex).type = 0 ∨ (defaultPlugin.barConfiguration memoryIndex).type = 1 :=
  .inl rfl

/-- The state after `pluginInit2`, with zeros before. -/
def freshState : State := pluginInit2 defaultPlugin ⟨0, fun _ => 0, 0⟩

/-- A write to the command register of device 0 changes the header, and so does one to a BAR of
    function 4 of the device. -/
theorem not_isolated_commandRegister :
    (¬ Addressed defaultPlugin 0x80000004 ∧ ¬ Isolated defaultPlugin freshState 0x80000004) ∧
      (¬ Addressed defaultPlugin 0x8000dc10 ∧ ¬ Isolated defaultPlugin freshState 0x8000dc10) := by
  refine ⟨⟨by decide, fun isolated => ?_⟩, ⟨by decide, fun isolated => ?_⟩⟩
  · have write := congrFun (isolated.1 0 .dword (.constant 7)) 1
    exact absurd write (by decide)
  · have write := congrFun (isolated.1 0 .dword (.constant 0xfebc0000)) 4
    exact absurd write (by decide)

end DevFuzz.PeX
