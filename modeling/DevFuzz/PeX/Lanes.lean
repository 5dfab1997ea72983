import DevFuzz.PeX.Isolation

/-! # Byte lanes of the configuration registers

A write of one or two bytes to a configuration register goes to its lowest bytes,
whatever the port; a read takes the bytes that the port selects, except for a BAR.
`lanes_iff` says where the two agree.
-/

namespace DevFuzz.PeX

/-- A naturally aligned access to the bytes of the selected register from `k` on. -/
structure DataAccess where
  width : Width
  k : Fin 4
  aligned : k.val % width.size = 0

namespace DataAccess

variable (a : DataAccess)

/-- The bytes of a register that the access is meant for. -/
def lane (reg : BitVec 32) : BitVec a.width.bits := reg.extractLsb' (8 * a.k) a.width.bits

theorem low_or_behind : a.k = 0 ∨ a.width.size ≤ a.k.val := by
  have := a.aligned
  cases width : a.width <;> simp only [width, Width.size] at this ⊢ <;> omega

theorem fits : a.k.val + a.width.size ≤ 4 := by
  have := a.aligned
  cases width : a.width <;> simp only [width, Width.size] at this ⊢ <;> omega

end DataAccess

/-! ## Registers -/

theorem getLsbD_mask {i : Nat} (inside : i < 32) :
    (0xffffff00 : BitVec 32).getLsbD i = decide (8 ≤ i) ∧ (0xffff0000 : BitVec 32).getLsbD i = decide (16 ≤ i) := by
  decide +revert

/-- Masking the low bits out and putting a value in. -/
theorem getLsbD_masked_or {n : Nat} (old mask : BitVec 32) (v : BitVec n) {i : Nat} (inside : i < 32)
    (masked : mask.getLsbD i = decide (n ≤ i)) :
    ((old &&& mask) ||| (v.setWidth 64).setWidth 32).getLsbD i = if i < n then v.getLsbD i else old.getLsbD i := by
  have wide : i < 64 := by omega
  rw [BitVec.getLsbD_or, BitVec.getLsbD_and, BitVec.getLsbD_setWidth, BitVec.getLsbD_setWidth, masked]
  by_cases low : i < n
  · simp [low, inside, wide]
  · simp [low, Nat.not_lt.mp low]

/-- A write replaces the low bits, the others stay. -/
theorem getLsbD_mergeReg (old : BitVec 32) {w : Width} (v : BitVec w.bits) {i : Nat} (inside : i < 32) :
    (mergeReg old (v.setWidth 64) w).getLsbD i = if i < w.bits then v.getLsbD i else old.getLsbD i := by
  obtain ⟨byteMask, wordMask⟩ := getLsbD_mask inside
  cases w with
  | byte => exact getLsbD_masked_or old _ v inside byteMask
  | word => exact getLsbD_masked_or old _ v inside wordMask
  | dword =>
    have wide : i < 64 := by omega
    have low : i < Width.dword.bits := inside
    simp only [mergeReg, BitVec.getLsbD_setWidth, inside, wide, low, decide_true, Bool.true_and, if_true]

variable (a : DataAccess)

/-- The lowest lane is the one that a write reaches. -/
theorem lane_mergeReg_zero (low : a.k = 0) (old : BitVec 32) (v : BitVec a.width.bits) :
    a.lane (mergeReg old (v.setWidth 64) a.width) = v := by
  apply BitVec.eq_of_getLsbD_eq
  intro i inside
  have fits := a.fits
  have bits : a.width.bits ≤ 32 := by
    unfold Width.bits
    omega
  rw [DataAccess.lane, low, BitVec.getLsbD_extractLsb', getLsbD_mergeReg _ _ (by simp; omega)]
  simp [inside]

/-- The lanes behind the width of a write stay as they are. -/
theorem lane_mergeReg_behind {w : Width} (old : BitVec 32) (v : BitVec w.bits) (behind : w.size ≤ a.k.val) :
    a.lane (mergeReg old (v.setWidth 64) w) = a.lane old := by
  apply BitVec.eq_of_getLsbD_eq
  intro i bound
  have fits := a.fits
  have inside : 8 * a.k.val + i < 32 := by
    unfold Width.bits at bound
    omega
  have high : ¬ 8 * a.k.val + i < w.bits := by
    unfold Width.bits
    omega
  rw [DataAccess.lane, DataAccess.lane, BitVec.getLsbD_extractLsb', BitVec.getLsbD_extractLsb',
    getLsbD_mergeReg _ _ inside, if_neg high]

theorem concreteReg_eq_lane (s : State) (reg : Nat) : concreteReg s reg a.k.val a.width = a.lane (s.header reg) := by
  have aligned := a.aligned
  unfold DataAccess.lane
  cases width : a.width with
  | byte => rfl
  | word =>
    rw [width, Width.size] at aligned
    have even : 16 * (a.k.val >>> 1) = 8 * a.k.val := by
      rw [Nat.shiftRight_eq_div_pow]
      omega
    simp only [concreteReg, getPCIReg16, even]
    rfl
  | dword =>
    rw [width, Width.size] at aligned
    have low : a.k.val = 0 := by omega
    simp only [concreteReg, getPCIReg32, low, Nat.mul_zero]
    exact BitVec.extractLsb'_eq_self.symm

/-! ## Reads and writes -/

section

variable (p : Plugin) (s : State)

/-- What a read at the access's port returns. -/
def readAt (native : BitVec 64) : Expr a.width.bits := createExpressionPort p s (dataAddress a.k) a.width native

def writtenAt (v : BitVec a.width.bits) : State :=
  slotOnPortAccess p s (dataPort a.k) (.constant v : Expr a.width.bits) true

/-- The access to the byte `j` of the register. -/
def byteAt (j : Fin 4) : DataAccess := ⟨.byte, j, Nat.mod_one _⟩

def dwordAccess : DataAccess := ⟨.dword, 0, rfl⟩

/-- What has been written is read back, and the other bytes read as before. -/
def KeepsLanes : Prop :=
  ∀ v, (∀ native, readAt a p (writtenAt a p s v) native = .constant v) ∧
    ∀ j : Fin 4, j < a.k ∨ a.k.val + a.width.size ≤ j.val → ∀ native,
      readAt (byteAt j) p (writtenAt a p s v) native = readAt (byteAt j) p s native

/-- A read takes its bytes of what the 32-bit read returns. -/
def NarrowReads : Prop :=
  ∃ dword : BitVec 32, (∀ native, readAt dwordAccess p s native = .constant dword) ∧
    ∀ native, readAt a p s native = .constant (a.lane dword)

variable {a p s}

theorem writtenAt_of_not_bar (plain : barIndex? s.reg = none) (v : BitVec a.width.bits) :
    writtenAt a p s v = s.setReg s.reg (mergeReg (s.header s.reg) (v.setWidth 64) a.width) := by
  rw [writtenAt, slotOnPortAccess_dataPort, writeData, plain]
  rfl

theorem bar_setReg {reg : Nat} (plain : barIndex? reg = none) (value : BitVec 32) (i : Fin 6) :
    (s.setReg reg value).bar i = s.bar i := by
  have other : 0x04 + i.val ≠ reg := by
    rintro rfl
    have bound := i.isLt
    rw [barIndex?, dif_pos (by omega)] at plain
    cases plain
  exact Function.update_of_ne other _ _

theorem pioName_congr {t : State} {i : Fin 6} (same : s.bar i = t.bar i) (pc : s.pc = t.pc) (address : BitVec 64)
    (w : Width) : pioName s i address w = pioName t i address w := by
  unfold pioName getBarLowAddr
  rw [same, pc]

theorem readAt_of_covered {i : Fin 6} (covered : fallsIntoPIOBar p s (dataAddress a.k) = some i) (native : BitVec 64) :
    readAt a p s native = .symbolic (pioName s i (dataAddress a.k) a.width) := by
  rw [readAt, createExpressionPort, covered]

theorem uncovered_of_readAt {v : BitVec a.width.bits} {native : BitVec 64} (read : readAt a p s native = .constant v) :
    fallsIntoPIOBar p s (dataAddress a.k) = none := by
  cases covered : fallsIntoPIOBar p s (dataAddress a.k) with
  | none => rfl
  | some i =>
    rw [readAt_of_covered covered] at read
    cases read

/-- What a read of the symbolic device returns: of a BAR the lowest bytes, whatever the port. -/
def visible (a : DataAccess) (s : State) : BitVec a.width.bits :=
  if (barIndex? s.reg).isSome then (s.header s.reg).extractLsb' 0 a.width.bits else a.lane (s.header s.reg)

theorem readAt_of_uncovered (uncovered : fallsIntoPIOBar p s (dataAddress a.k) = none) (native : BitVec 64) :
    readAt a p s native =
      .constant (if isOurDevice p s then visible a s else native.setWidth a.width.bits) := by
  have narrow : ((s.header s.reg).setWidth 64).setWidth a.width.bits =
      (s.header s.reg).extractLsb' 0 a.width.bits := by
    have fits := a.fits
    apply BitVec.eq_of_getLsbD_eq
    intro i bound
    simp [bound]
  rw [readAt, createExpressionPort_dataAddress p s _ _ _ uncovered, visible, concreteReg_eq_lane, narrow]
  cases barIndex? s.reg <;> split_ifs <;> simp_all

section

variable (plain : barIndex? s.reg = none) (v : BitVec a.width.bits) (b : DataAccess)

include plain

theorem fallsIntoPIOBar_writtenAt (address : BitVec 64) :
    fallsIntoPIOBar p (writtenAt a p s v) address = fallsIntoPIOBar p s address := by
  rw [writtenAt_of_not_bar plain]
  exact fallsIntoPIOBar_congr p (bar_setReg plain _) address

theorem readAt_writtenAt (uncovered : fallsIntoPIOBar p s (dataAddress b.k) = none) (native : BitVec 64) :
    readAt b p (writtenAt a p s v) native =
      .constant (if isOurDevice p s then b.lane (mergeReg (s.header s.reg) (v.setWidth 64) a.width)
        else native.setWidth b.width.bits) := by
  have uncovered' : fallsIntoPIOBar p (writtenAt a p s v) (dataAddress b.k) = none :=
    (fallsIntoPIOBar_writtenAt plain v _).trans uncovered
  have plain' : barIndex? (writtenAt a p s v).reg = none := by
    rw [writtenAt_of_not_bar plain]
    exact plain
  rw [readAt_of_uncovered uncovered', visible, plain', writtenAt_of_not_bar plain, State.setReg_header,
    State.setReg_reg, Function.update_self]
  rfl

theorem readAt_writtenAt_behind (behind : a.width.size ≤ b.k.val) (native : BitVec 64) :
    readAt b p (writtenAt a p s v) native = readAt b p s native := by
  cases covered : fallsIntoPIOBar p s (dataAddress b.k) with
  | none =>
    rw [readAt_writtenAt plain v b covered, readAt_of_uncovered covered, visible, plain,
      lane_mergeReg_behind b _ v behind]
    rfl
  | some i =>
    have same : ∀ i, (writtenAt a p s v).bar i = s.bar i := by
      rw [writtenAt_of_not_bar plain]
      exact bar_setReg plain _
    have pc : (writtenAt a p s v).pc = s.pc := by
      rw [writtenAt_of_not_bar plain]
      rfl
    rw [readAt_of_covered covered, readAt_of_covered ((fallsIntoPIOBar_writtenAt plain v _).trans covered),
      pioName_congr (same i) pc]

theorem keepsLanes_iff :
    KeepsLanes a p s ↔
      isOurDevice p s = true ∧ fallsIntoPIOBar p s (dataAddress a.k) = none ∧ a.k = 0 := by
  have some : 0 < a.width.bits := by cases a.width <;> decide
  constructor
  · intro keeps
    have uncovered : fallsIntoPIOBar p s (dataAddress a.k) = none :=
      (fallsIntoPIOBar_writtenAt plain _ _).symm.trans (uncovered_of_readAt ((keeps 0).1 0))
    have reads : ∀ v (native : BitVec 64), (if isOurDevice p s then a.lane (mergeReg (s.header s.reg) (v.setWidth 64) a.width)
        else native.setWidth a.width.bits) = v := by
      intro v native
      have read := (keeps v).1 native
      rw [readAt_writtenAt plain v a uncovered] at read
      exact Expr.constant.inj read
    have ours : isOurDevice p s = true := by
      by_contra foreign
      have native := reads 0 1
      rw [if_neg foreign] at native
      have bit := congrArg (BitVec.getLsbD · 0) native
      simp [some] at bit
    refine ⟨ours, uncovered, a.low_or_behind.resolve_right fun behind => ?_⟩
    -- the write has gone to another lane, and the old one is read
    have kept := reads (~~~ a.lane (s.header s.reg)) 0
    rw [if_pos ours, lane_mergeReg_behind a _ _ behind] at kept
    have bit := congrArg (BitVec.getLsbD · 0) kept
    simp [some] at bit
  · rintro ⟨ours, uncovered, low⟩ v
    constructor
    · intro native
      rw [readAt_writtenAt plain v a uncovered, if_pos ours, lane_mergeReg_zero a low]
    · intro j outside native
      refine readAt_writtenAt_behind plain v (byteAt j) ?_ native
      rcases outside with before | behind
      · exact absurd before (by simp [low])
      · have behind' : 0 + a.width.size ≤ j.val := by simpa [low] using behind
        exact (Nat.zero_add a.width.size) ▸ behind'

end

theorem visible_dwordAccess : visible dwordAccess s = s.header s.reg := by
  have whole : (s.header s.reg).extractLsb' 0 32 = s.header s.reg := BitVec.extractLsb'_eq_self
  unfold visible
  split_ifs
  · exact whole
  · exact whole

theorem narrowReads_iff :
    NarrowReads a p s ↔
      isOurDevice p s = true ∧ fallsIntoPIOBar p s (dataAddress 0) = none ∧
        fallsIntoPIOBar p s (dataAddress a.k) = none ∧
        ((barIndex? s.reg).isSome = true →
          a.lane (s.header s.reg) = (s.header s.reg).extractLsb' 0 a.width.bits) := by
  constructor
  · rintro ⟨dword, wide, narrow⟩
    have first := uncovered_of_readAt (wide 0)
    have here := uncovered_of_readAt (narrow 0)
    have ours : isOurDevice p s = true := by
      by_contra foreign
      have zero := (readAt_of_uncovered (a := dwordAccess) first 0).symm.trans (wide 0)
      have one := (readAt_of_uncovered (a := dwordAccess) first 1).symm.trans (wide 1)
      rw [if_neg foreign] at zero one
      exact absurd (zero.trans one.symm) (by decide)
    refine ⟨ours, first, here, fun bar => ?_⟩
    have whole := (readAt_of_uncovered (a := dwordAccess) first 0).symm.trans (wide 0)
    have part := (readAt_of_uncovered here 0).symm.trans (narrow 0)
    rw [if_pos ours] at whole part
    have whole' : s.header s.reg = dword := visible_dwordAccess.symm.trans (Expr.constant.inj whole)
    rw [whole', ← Expr.constant.inj part, visible, if_pos bar, whole']
  · rintro ⟨ours, first, here, same⟩
    refine ⟨s.header s.reg, fun native => ?_, fun native => ?_⟩
    · rw [readAt_of_uncovered (a := dwordAccess) first, if_pos ours]
      exact congrArg Expr.constant visible_dwordAccess
    · rw [readAt_of_uncovered here, if_pos ours, visible]
      split_ifs with bar
      · rw [same bar]
      · rfl

/-- A write to a register of the device is read back, with the other bytes as before, at the port
    0xcfc only; and the bytes of a BAR are read from their ports only where they are equal to its
    lowest bytes.  Both need a function that the device test lets through and no port BAR over the
    data ports. -/
theorem lanes_iff (a : DataAccess) (p : Plugin) (s : State) :
    ((barIndex? s.reg = none → KeepsLanes a p s) ↔
        (barIndex? s.reg).isSome = true ∨
          (Claimed p s.configAddress ∧ fallsIntoPIOBar p s (dataAddress a.k) = none ∧ a.k = 0)) ∧
      (NarrowReads a p s ↔
        Claimed p s.configAddress ∧ fallsIntoPIOBar p s (dataAddress 0) = none ∧
          fallsIntoPIOBar p s (dataAddress a.k) = none ∧
          ((barIndex? s.reg).isSome = true →
            a.lane (s.header s.reg) = (s.header s.reg).extractLsb' 0 a.width.bits)) := by
  rw [← isOurDevice_iff]
  refine ⟨?_, narrowReads_iff⟩
  cases bar : barIndex? s.reg with
  | some i => simp
  | none =>
    simp only [forall_const, Option.isSome_none, Bool.false_eq_true, false_or]
    exact keepsLanes_iff bar

end

/-- A write to the status word of the device is read back as zero, and reading the second byte of a
    BAR gives its first. -/
theorem not_keepsLanes_statusWord :
    (Addressed defaultPlugin 0x8000d804 ∧
        ¬ KeepsLanes ⟨.word, 2, rfl⟩ defaultPlugin (select defaultPlugin freshState 0x8000d804)) ∧
      (Addressed defaultPlugin 0x8000d810 ∧
        ¬ NarrowReads ⟨.byte, 1, rfl⟩ defaultPlugin (select defaultPlugin freshState 0x8000d810)) := by
  refine ⟨⟨by decide, fun keeps => ?_⟩, ⟨by decide, fun narrow => ?_⟩⟩
  · exact absurd ((keepsLanes_iff rfl).mp keeps).2.2 (by decide)
  · exact absurd ((narrowReads_iff.mp narrow).2.2.2 rfl) (by decide)

end DevFuzz.PeX
