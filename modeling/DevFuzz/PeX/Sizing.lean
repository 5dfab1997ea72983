import Mathlib.Data.List.Induction
import DevFuzz.PeX.Lanes

/-! # Sizing a BAR

A driver sizes a BAR by writing all ones to it: the bits that it reads back as zero are
hard-wired, and the lowest bit tells port from memory BARs.  The plugin clears the
lowest bit of whatever is written and masks nothing but all ones, so a BAR follows
the protocol in a memory BAR and for values without hard-wired bits (`sized_iff`).
-/

namespace DevFuzz.PeX

/-! ## Cycles for a BAR -/

/-- A value of CONFIG_ADDRESS that selects the BAR `i` of the symbolic device. -/
structure Selection (p : Plugin) (i : Fin 6) where
  value : BitVec 32
  claimed : Claimed p value
  register : regAddr value = 0x04 + i.val

/-- A configuration cycle that writes 32 bits to the BAR. -/
structure BarWrite (p : Plugin) (i : Fin 6) extends Selection p i where
  data : BitVec 32

section

variable (p : Plugin) {i : Fin 6}

def barWrite (s : State) (w : BarWrite p i) : State := writtenAt dwordAccess p (select p s w.value) w.data

def barWrites (s : State) (writes : List (BarWrite p i)) : State := writes.foldl (barWrite p) s

/-- A configuration cycle that reads the BAR. -/
def barRead (s : State) (selection : Selection p i) (native : BitVec 64) : Expr 32 :=
  readAt dwordAccess p (select p s selection.value) native

end

/-- A memory BAR or a port BAR of a plugin. -/
structure AnyBar where
  plugin : Plugin
  index : Fin 6
  mmioOrPio : (plugin.barConfiguration index).type = 0 ∨ (plugin.barConfiguration index).type = 1

namespace AnyBar

variable (b : AnyBar)

def mask : BitVec 32 := (b.plugin.barConfiguration b.index).range.setWidth 32

def type : BitVec 32 := (b.plugin.barConfiguration b.index).type.setWidth 32

/-- A read of the BAR after some writes, from the state that `pluginInit2` sets up on. -/
def read (s : State) (writes : List (BarWrite b.plugin b.index)) (selection : Selection b.plugin b.index)
    (native : BitVec 64) : Expr 32 :=
  barRead b.plugin (barWrites b.plugin (pluginInit2 b.plugin s) writes) selection native

/-- After the writes, the BAR reads as the last value under the mask, with the type in bit 0. -/
structure Sized (s : State) (writes : List (BarWrite b.plugin b.index)) : Prop where
  value : ∀ last ∈ writes.getLast?, ∀ selection native,
    b.read s writes selection native = .constant ((last.data &&& b.mask) ||| b.type)
  typeBit : ∀ selection native, ∃ value,
    b.read s writes selection native = .constant value ∧ value.getLsbD 0 = b.type.getLsbD 0

/-- What `configBAR` makes of a value. -/
def stored (v : BitVec 32) : BitVec 32 :=
  if v = 0xffffffff then ((b.plugin.barConfiguration b.index).range &&& ~~~ 1).setWidth 32 else v &&& ~~~ 1

/-- The BARs after the writes. -/
structure Registers (s : State) (last : Option (BitVec 32)) : Prop where
  own : s.bar b.index = (last.map b.stored).getD b.type
  others : ∀ j ≠ b.index, s.bar j = (b.plugin.barConfiguration j).type.setWidth 32

end AnyBar

/-! ## The registers -/

theorem pluginInit2_bar (p : Plugin) (s : State) (j : Fin 6) :
    (pluginInit2 p s).bar j = (p.barConfiguration j).type.setWidth 32 := by
  unfold State.bar pluginInit2 initialRegs
  obtain ⟨k, bound⟩ := j
  cases p.useCapability with
  | false => interval_cases k <;> rfl
  | true => interval_cases k <;> rfl

theorem barIndex?_bar (i : Fin 6) : barIndex? (0x04 + i.val) = some i := by
  decide +revert

section

variable (p : Plugin) (s : State) {i : Fin 6}

theorem isOurDevice_select (selection : Selection p i) : isOurDevice p (select p s selection.value) = true := by
  rw [isOurDevice_iff, select_configAddress]
  exact selection.claimed

theorem barIndex?_select (selection : Selection p i) : barIndex? (select p s selection.value).reg = some i := by
  rw [State.reg, select_configAddress, selection.register]
  exact barIndex?_bar i

theorem barWrite_eq (w : BarWrite p i) :
    barWrite p s w = configBAR p (select p s w.value) i w.data := by
  have written : barWrite p s w = writeData p (select p s w.value) .dword (w.data.setWidth 64) :=
    slotOnPortAccess_dataPort p _ 0 _
  rw [written, writeData, barIndex?_select p s w.toSelection]
  simp

end

namespace AnyBar

variable (b : AnyBar) {s : State}

theorem barWrite_bar_self (w : BarWrite b.plugin b.index) : (barWrite b.plugin s w).bar b.index = b.stored w.data := by
  rw [barWrite_eq, configBAR, if_pos (isOurDevice_select _ _ _)]
  exact Function.update_self _ _ _

theorem barWrite_bar_other (w : BarWrite b.plugin b.index) {j : Fin 6} (other : j ≠ b.index) :
    (barWrite b.plugin s w).bar j = s.bar j := by
  have apart : 0x04 + j.val ≠ 0x04 + b.index.val := by
    intro same
    exact other (Fin.ext (by omega))
  rw [barWrite_eq, configBAR, if_pos (isOurDevice_select _ _ _), State.bar, State.setReg_header,
    Function.update_of_ne apart, select_header]
  rfl

theorem registers_barWrites (s : State) (writes : List (BarWrite b.plugin b.index)) :
    b.Registers (barWrites b.plugin (pluginInit2 b.plugin s) writes) (writes.getLast?.map BarWrite.data) := by
  induction writes using List.reverseRecOn with
  | nil =>
    rw [barWrites, List.foldl_nil]
    exact ⟨by rw [pluginInit2_bar]; rfl, fun j _ => by rw [pluginInit2_bar]⟩
  | append_singleton writes w ih =>
    rw [barWrites] at ih ⊢
    rw [List.foldl_append, List.getLast?_append]
    generalize List.foldl (barWrite b.plugin) (pluginInit2 b.plugin s) writes = t at ih ⊢
    exact ⟨b.barWrite_bar_self w, fun j other => (b.barWrite_bar_other w other).trans (ih.others j other)⟩

/-- A BAR that holds its type has not been given an address. -/
theorem not_covers_of_type {p : Plugin} {s : State} {j : Fin 6} {a : BitVec 64} (port : (p.barConfiguration j).type = 1)
    (initial : s.bar j = (p.barConfiguration j).type.setWidth 32) : barCovers p s a j = false := by
  rw [barCovers, initial, port]
  simp

/-- No port BAR lies over the data ports, as long as this one is not one or has not been written to. -/
theorem uncovered {last : Option (BitVec 32)} (registers : b.Registers s last) (silent : b.type = 0 ∨ last = none)
    (a : BitVec 64) : fallsIntoPIOBar b.plugin s a = none := by
  rw [fallsIntoPIOBar, List.find?_eq_none]
  intro j _ test
  simp only [Bool.and_eq_true, decide_eq_true_eq] at test
  obtain ⟨port, covers⟩ := test
  have initial : s.bar j = (b.plugin.barConfiguration j).type.setWidth 32 := by
    by_cases own : j = b.index
    · subst own
      rcases silent with memory | unwritten
      · rw [type, port] at memory
        exact absurd memory (by decide)
      · rw [registers.own, unwritten]
        rfl
    · exact registers.others j own
  rw [not_covers_of_type port initial] at covers
  cases covers

theorem select_bar (selection : Selection b.plugin b.index) (j : Fin 6) :
    (select b.plugin s selection.value).bar j = s.bar j := by
  rw [State.bar, select_header]
  rfl

theorem uncovered_of_barRead {selection : Selection b.plugin b.index} {native : BitVec 64} {value : BitVec 32}
    (read : barRead b.plugin s selection native = .constant value) : fallsIntoPIOBar b.plugin s 0xcfc = none :=
  (fallsIntoPIOBar_congr b.plugin (b.select_bar selection) _).symm.trans (uncovered_of_readAt read)

theorem barRead_of_uncovered (uncovered : fallsIntoPIOBar b.plugin s 0xcfc = none)
    (selection : Selection b.plugin b.index) (native : BitVec 64) :
    barRead b.plugin s selection native = .constant (s.bar b.index) := by
  have uncovered' : fallsIntoPIOBar b.plugin (select b.plugin s selection.value) (dataAddress dwordAccess.k) = none :=
    (fallsIntoPIOBar_congr b.plugin (b.select_bar selection) _).trans uncovered
  have reg : (select b.plugin s selection.value).reg = 0x04 + b.index.val := by
    rw [State.reg, select_configAddress, selection.register]
  rw [barRead, readAt_of_uncovered uncovered', if_pos (isOurDevice_select _ _ _), visible,
    if_pos (by rw [barIndex?_select]; rfl), select_header, reg]
  exact congrArg Expr.constant BitVec.extractLsb'_eq_self

/-! ## What is stored -/

theorem getLsbD_and_not_one (x : BitVec 32) : (x &&& ~~~ 1).getLsbD 0 = false := by simp

theorem and_not_one_eq_self_iff (x : BitVec 32) : x &&& ~~~ 1 = x ↔ x.getLsbD 0 = false := by
  constructor
  · intro same
    rw [← same]
    exact getLsbD_and_not_one x
  · intro clear
    apply BitVec.eq_of_getLsbD_eq
    intro k inside
    by_cases zero : k = 0
    · rw [zero, clear]
      exact getLsbD_and_not_one x
    · have one : (1 : BitVec 32).getLsbD k = false := (BitVec.getLsbD_one ..).trans (by simp [zero])
      rw [BitVec.getLsbD_and, BitVec.getLsbD_not, one]
      simp [inside]

theorem stored_ones : b.stored 0xffffffff = b.mask &&& ~~~ 1 := by
  rw [stored, if_pos rfl, mask]
  apply BitVec.eq_of_getLsbD_eq
  intro k inside
  have wide : k < 64 := by omega
  simp [inside, wide]

theorem stored_getLsbD_zero (v : BitVec 32) : (b.stored v).getLsbD 0 = false := by
  by_cases ones : v = 0xffffffff
  · rw [ones, stored_ones]
    exact getLsbD_and_not_one _
  · rw [stored, if_neg ones]
    exact getLsbD_and_not_one v

theorem type_eq : b.type = 0 ∨ b.type = 1 := by
  rcases b.mmioOrPio with memory | port
  · left
    rw [type, memory]
    rfl
  · right
    rw [type, port]
    rfl

/-- The type bit is lost in a port BAR. -/
theorem type_eq_zero_of_stored {v w : BitVec 32} (same : b.stored v = w ||| b.type) : b.type = 0 := by
  refine b.type_eq.resolve_right fun port => ?_
  have bit := b.stored_getLsbD_zero v
  rw [same, port, BitVec.getLsbD_or] at bit
  simp at bit

/-- The value that is stored is the one under the mask. -/
theorem stored_eq_iff (v : BitVec 32) :
    b.stored v = v &&& b.mask ↔
      if v = 0xffffffff then b.mask.getLsbD 0 = false else v &&& b.mask = v &&& ~~~ 1 := by
  split_ifs with ones
  · have all : (0xffffffff : BitVec 32) &&& b.mask = b.mask := BitVec.allOnes_and
    rw [ones, stored_ones, all, and_not_one_eq_self_iff]
  · rw [stored, if_neg ones]
    exact eq_comm

end AnyBar

/-- A BAR follows the sizing protocol exactly when nothing has been written to it, or it is a memory BAR whose mask has
    bit 0 clear if the last value written was all ones, and otherwise the value has no bits outside the mask but bit
    0. -/
theorem sized_iff (b : AnyBar) (s : State) (writes : List (BarWrite b.plugin b.index)) :
    b.Sized s writes ↔
      ∀ last ∈ writes.getLast?, b.type = 0 ∧
        if last.data = 0xffffffff then b.mask.getLsbD 0 = false else last.data &&& b.mask = last.data &&& ~~~ 1 := by
  have registers := b.registers_barWrites s writes
  constructor
  · intro sized last member
    have value := sized.value last member last.toSelection 0
    rw [AnyBar.read, b.barRead_of_uncovered (b.uncovered_of_barRead value), registers.own, member] at value
    have same : b.stored last.data = (last.data &&& b.mask) ||| b.type := Expr.constant.inj value
    have memory := b.type_eq_zero_of_stored same
    refine ⟨memory, (b.stored_eq_iff _).mp (same.trans ?_)⟩
    rw [memory]
    exact BitVec.or_zero
  · intro law
    cases latest : writes.getLast? with
    | none =>
      rw [latest] at registers
      have uncovered := b.uncovered registers (.inr rfl) 0xcfc
      refine ⟨by simp [latest], fun selection native => ⟨b.type, ?_, rfl⟩⟩
      rw [AnyBar.read, b.barRead_of_uncovered uncovered, registers.own]
      rfl
    | some last =>
      obtain ⟨memory, inside⟩ := law last latest
      rw [latest] at registers
      have uncovered := b.uncovered registers (.inl memory) 0xcfc
      have reads : ∀ selection native, b.read s writes selection native = .constant (b.stored last.data) := by
        intro selection native
        rw [AnyBar.read, b.barRead_of_uncovered uncovered, registers.own]
        rfl
      refine ⟨fun last' member selection native => ?_, fun selection native => ⟨_, reads selection native, ?_⟩⟩
      · obtain rfl : last = last' := Option.some.inj (latest.symm.trans member)
        rw [reads, (b.stored_eq_iff _).mpr inside, memory]
        exact congrArg Expr.constant BitVec.or_zero.symm
      · rw [b.stored_getLsbD_zero, memory]
        rfl

def portBar : AnyBar := ⟨defaultPlugin, portIndex, portIndex_type⟩

def memoryBar : AnyBar := ⟨defaultPlugin, memoryIndex, memoryIndex_type⟩

def sizePortBar : BarWrite portBar.plugin portBar.index where
  value := 0x8000d810
  claimed := ⟨by decide, by decide, by decide⟩
  register := by decide
  data := 0xffffffff

def placeMemoryBar : BarWrite memoryBar.plugin memoryBar.index where
  value := 0x8000d814
  claimed := ⟨by decide, by decide, by decide⟩
  register := by decide
  data := 0xfeb80010

/-- A port BAR loses its type bit, and an address bit of a memory BAR that should be hard-wired can be set. -/
theorem not_sized_portBar :
    ¬ portBar.Sized ⟨0, fun _ => 0, 0⟩ [sizePortBar] ∧ ¬ memoryBar.Sized ⟨0, fun _ => 0, 0⟩ [placeMemoryBar] := by
  constructor
  · intro sized
    have value := sized.value sizePortBar rfl sizePortBar.toSelection 0
    have read : portBar.read ⟨0, fun _ => 0, 0⟩ [sizePortBar] sizePortBar.toSelection 0 = .constant 0xfffff800 := by
      decide
    exact absurd (read.symm.trans value) (by decide)
  · intro sized
    have value := sized.value placeMemoryBar rfl placeMemoryBar.toSelection 0
    have read : memoryBar.read ⟨0, fun _ => 0, 0⟩ [placeMemoryBar] placeMemoryBar.toSelection 0 =
        .constant 0xfeb80010 := by
      decide
    exact absurd (read.symm.trans value) (by decide)

end DevFuzz.PeX
