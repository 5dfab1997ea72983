import DevFuzz.Wrappers.Tables
import Mathlib.Data.Fintype.Basic
import Mathlib.Order.Fin.Basic

/-! # What the offsets of wrappers keep

Every wrapper reads one register, at a constant offset or at the one in a parameter.
In the table the two are one integer, and `-1` is the mark of the source for an offset that
is not known: the constants `0` and `1` are taken for parameter `0` and for that mark.
The integer is an `int`, as the sum of base and offset is, so that large ones are cut.
-/

namespace DevFuzz.Wrappers

/-! ## Registers -/

inductive Offset where
  | constant (c : Nat)
  | param (i : Nat)
  deriving DecidableEq, Repr

structure Register where
  base : Int
  offset : Offset
  size : Int
  deriving DecidableEq, Repr

def Value.param? : Value → Option Nat
  | argument no => some no
  | cast v => v.param?
  | constantInt _ | other => none

namespace Offset

/-- The offset for the caller of a wrapper: that of a parameter is what the caller passes. -/
def inCaller (args : List Value) : Offset → Option Offset
  | constant c => some (constant c)
  | param i => match args.getD i .other with
    | .constantInt value => some (constant value.toNat)
    | v => v.param?.map param

end Offset

def Pointer.offset? : Pointer → Option Offset
  | gepIndex offset => offset.param?.map .param
  | gepConstant offset => some (.constant offset.1.toNat)
  | add (.constantInt value) => some (.constant value.toNat)
  | add _ | other => none

section

variable {φ κ : Type}

/-- The register of a read, where `collectMMIOReadInterface` knows its offset. -/
def IoRead.register? (r : IoRead φ) : Option Register :=
  r.pointer.offset?.map fun offset => ⟨if r.baseOff = -1 then 0 else r.baseOff, offset, r.size⟩

/-- The function returns the value of the register, through calls of any depth. -/
inductive Module.Wraps (M : Module φ κ) : φ → Register → Prop where
  | read {r : IoRead φ} {reg : Register} (mem : r ∈ M.callIoReads) (returned : r.returned = true)
      (reads : r.register? = some reg) : M.Wraps r.func reg
  | call {func : φ} {reg : Register} {offset : Offset} {call : Call φ} (callee : M.Wraps func reg)
      (site : M.CallSite func call) (returned : call.returned = true)
      (up : reg.offset.inCaller call.args = some offset) : M.Wraps call.caller { reg with offset := offset }

/-- The values that the offset of a function has at calls of it: a constant is what it is whatever the arguments are,
    and a parameter has the constants that the calls of the module pass for it. -/
inductive Module.CallValue (M : Module φ κ) (func : φ) : Offset → List Value → Nat → Prop where
  | constant (c : Nat) (args : List Value) : M.CallValue func (.constant c) args c
  | param {i : Nat} {call : Call φ} {value : UInt64} (site : M.CallSite func call)
      (passed : call.args.getD i .other = .constantInt value) : M.CallValue func (.param i) call.args value.toNat

/-- A module whose wrappers read one register each; `findMMIOBaseOff` returns an `int`. -/
structure Driver (φ κ : Type) extends Module φ κ where
  oneRegister : ∀ func reg reg', toModule.Wraps func reg → toModule.Wraps func reg' → reg = reg'
  intBases : ∀ r ∈ callIoReads, toInt r.baseOff = r.baseOff

/-- The sum of base and offset is an `int` at every call. -/
def Driver.Fits (D : Driver φ κ) : Prop :=
  ∀ func reg, D.Wraps func reg → ∀ args value, D.CallValue func reg.offset args value → reg.base + value < 2147483648

variable [LinearOrder φ] [Fintype φ] [DecidableEq κ]

/-- The collection returns, and then every call of a wrapper, whose offset is a constant there, is
    resolved to the register that it reads. -/
def Driver.Lossless (D : Driver φ κ) : Prop :=
  ∃ t, D.collectMMIOReadWrappers = some t ∧
    ∀ func reg, D.Wraps func reg → ∀ args value, D.CallValue func reg.offset args value →
      t.readSource func args = some (reg.base + value, reg.size)

end

/-! ## Encoding -/

namespace Offset

def encode : Offset → Int
  | constant c => toInt (-toInt c)
  | param i => i

/-- The code of the offset is not that of a parameter. -/
def Encodes : Offset → Prop
  | constant c => 0 < c ∧ c ≤ 2147483648
  | param _ => True

/-- The offset for the caller, as far as the tables have it. -/
def carried (args : List Value) : Offset → Option Offset
  | constant c => if c = 1 then none else some (constant c)
  | param i => (args.getD i .other).param?.map param

end Offset

def Register.encode (reg : Register) : Wrapper := ⟨reg.base, reg.offset.encode, reg.size⟩

theorem Register.encode_offsetParamId (reg : Register) : reg.encode.offsetParamId = reg.offset.encode := rfl

theorem toInt_emod (n : Int) : toInt n % 4294967296 = n % 4294967296 := Int.bmod_emod

theorem toInt_bounds (n : Int) : -2147483648 ≤ toInt n ∧ toInt n < 2147483648 :=
  ⟨Int.le_bmod (by decide), Int.bmod_lt (by decide)⟩

theorem toInt_congr {a b : Int} (same : a % 4294967296 = b % 4294967296) : toInt a = toInt b := by
  have left := toInt_emod a
  have right := toInt_emod b
  have leftBounds := toInt_bounds a
  have rightBounds := toInt_bounds b
  omega

theorem encode_constant (c : Nat) : (Offset.constant c).encode = toInt (-c) := by
  have inner := toInt_emod c
  exact toInt_congr (by omega)

theorem toInt_of_bounds {n : Int} (lower : -2147483648 ≤ n) (upper : n < 2147483648) : toInt n = n := by
  have code := toInt_emod n
  have bounds := toInt_bounds n
  omega

theorem encode_constant_neg {c : Nat} (small : c < 4294967296) :
    (Offset.constant c).encode < 0 ↔ (Offset.constant c).Encodes := by
  have code := toInt_emod (-c)
  have bounds := toInt_bounds (-c)
  rw [encode_constant, Offset.Encodes]
  omega

theorem encode_constant_eq_neg_one {c : Nat} (small : c < 4294967296) :
    (Offset.constant c).encode = -1 ↔ c = 1 := by
  have code := toInt_emod (-c)
  have bounds := toInt_bounds (-c)
  rw [encode_constant]
  omega

theorem Offset.Encodes.lt {c : Nat} (encodes : (Offset.constant c).Encodes) : c < 4294967296 :=
  Nat.lt_of_le_of_lt encodes.2 (by decide)

theorem toInt_add_encode (base : Int) (c : Nat) :
    toInt (base + toInt (-(Offset.constant c).encode)) = toInt (base + c) := by
  rw [encode_constant]
  have code := toInt_emod (-c)
  have decoded := toInt_emod (-toInt (-c))
  exact toInt_congr (by omega)

theorem Value.getParamIndex_eq (v : Value) : v.getParamIndex = (v.param?.map Int.ofNat).getD (-1) := by
  induction v with
  | cast v ih => exact ih
  | constantInt | argument | other => rfl

/-- A negative code is carried unless it is the mark for none. -/
theorem Wrapper.inCaller_of_neg {w : Wrapper} (negative : w.offsetParamId < 0) (args : List Value) :
    w.inCaller args = if w.offsetParamId = -1 then none else some w := by
  rw [inCaller, callerParamId, if_pos negative]

theorem Wrapper.inCaller_of_nonneg {w : Wrapper} (nonneg : 0 ≤ w.offsetParamId) (args : List Value) :
    w.inCaller args =
      (args.getD w.offsetParamId.toNat .other).param?.map fun j => { w with offsetParamId := j } := by
  rw [inCaller, callerParamId, if_neg (Int.not_lt.mpr nonneg), Value.getParamIndex_eq]
  cases (args.getD w.offsetParamId.toNat .other).param? with
  | none => rfl
  | some j =>
    rw [Option.map_some, Option.getD_some, Option.map_some]
    exact if_neg (by simp)

theorem Pointer.offsetParam_eq (p : Pointer) : p.offsetParam = p.offset?.map Offset.encode := by
  cases p with
  | gepIndex v =>
    rw [offsetParam, offset?, v.getParamIndex_eq]
    cases v.param? <;> simp [Offset.encode]
  | add op1 => cases op1 <;> rfl
  | gepConstant | other => rfl

theorem IoRead.wrapper?_eq {φ : Type} (r : IoRead φ) : r.wrapper? = r.register?.map Register.encode := by
  rw [wrapper?, register?, r.pointer.offsetParam_eq, Option.map_map, Option.map_map]
  rfl

/-- Where the code is right, the tables carry the offset as `carried` does. -/
theorem Register.inCaller_encode {reg : Register} (encodes : reg.offset.Encodes) (args : List Value) :
    reg.encode.inCaller args =
      (reg.offset.carried args).map fun offset => ({ reg with offset := offset } : Register).encode := by
  obtain ⟨base, offset, size⟩ := reg
  cases offset with
  | constant c =>
    have negative := (encode_constant_neg encodes.lt).mpr encodes
    rw [Wrapper.inCaller_of_neg (by rwa [encode_offsetParamId]), encode_offsetParamId, Offset.carried]
    simp only [encode_constant_eq_neg_one encodes.lt]
    split <;> rfl
  | param i =>
    rw [Wrapper.inCaller_of_nonneg (Int.natCast_nonneg i), Offset.carried, Option.map_map]
    rfl

theorem Offset.inCaller_of_carried {args : List Value} {offset up : Offset} (carried : offset.carried args = some up) :
    offset.inCaller args = some up := by
  cases offset with
  | constant c => exact (ite_eq_iff.mp carried).elim (fun none => nomatch none.2) And.right
  | param i =>
    simp only [Offset.carried, inCaller] at carried ⊢
    cases arg : args.getD i .other with
    | constantInt =>
      rw [arg] at carried
      cases carried
    | argument | cast | other =>
      rw [arg] at carried
      exact carried

theorem Offset.encodes_of_carried {args : List Value} {offset up : Offset} (encodes : offset.Encodes)
    (carried : offset.carried args = some up) : up.Encodes := by
  cases offset with
  | constant c =>
    obtain ⟨-, absent⟩ | ⟨-, same⟩ := ite_eq_iff.mp carried
    · cases absent
    · cases same
      exact encodes
  | param i =>
    obtain ⟨j, -, rfl⟩ := Option.map_eq_some_iff.mp carried
    trivial

/-! ## What is kept -/

section

variable {φ κ : Type} {M : Module φ κ}

/-- The function returns the register through calls that the tables carry its offset along. -/
inductive Module.Kept (M : Module φ κ) : φ → Register → Prop where
  | read {r : IoRead φ} {reg : Register} (mem : r ∈ M.callIoReads) (returned : r.returned = true)
      (reads : r.register? = some reg) (encodes : reg.offset.Encodes) : M.Kept r.func reg
  | call {func : φ} {reg : Register} {offset : Offset} {call : Call φ} (callee : M.Kept func reg)
      (site : M.CallSite func call) (returned : call.returned = true)
      (up : reg.offset.carried call.args = some offset) : M.Kept call.caller { reg with offset := offset }

namespace Module

theorem Kept.encodes {func : φ} {reg : Register} (kept : M.Kept func reg) : reg.offset.Encodes := by
  induction kept with
  | read _ _ _ encodes => exact encodes
  | call _ _ _ up ih => exact Offset.encodes_of_carried ih up

/-- The offset of a parameter is lost nowhere: it comes from a parameter of every callee. -/
theorem Wraps.kept_of_param {func : φ} {reg : Register} (wraps : M.Wraps func reg) {i : Nat}
    (isParam : reg.offset = .param i) : M.Kept func reg := by
  induction wraps generalizing i with
  | @read r reg mem returned reads =>
    refine .read mem returned reads ?_
    rw [isParam]
    trivial
  | @call func reg offset call callee site returned up ih =>
    subst isParam
    cases below : reg.offset with
    | constant c =>
      rw [below] at up
      cases up
    | param j =>
      refine .call (ih below) site returned ?_
      rw [below] at up ⊢
      simp only [Offset.inCaller, Offset.carried] at up ⊢
      cases passed : call.args.getD j .other with
      | constantInt value =>
        rw [passed] at up
        cases up
      | argument | cast | other =>
        rw [passed] at up
        exact up

theorem Kept.wraps {func : φ} {reg : Register} (kept : M.Kept func reg) : M.Wraps func reg := by
  induction kept with
  | read mem returned reads _ => exact .read mem returned reads
  | call _ site returned up ih => exact .call ih site returned (Offset.inCaller_of_carried up)

/-- Every entry belongs to a register of its function: it is the code of the register, or the register has a
    constant offset that is taken for a parameter. -/
theorem Carried.register (small : ∀ func reg c, M.Wraps func reg → reg.offset = .constant c → c < 4294967296)
    {func : φ} {w : Wrapper} (carried : M.Carried func w) :
    ∃ reg, M.Wraps func reg ∧
      ((M.Kept func reg ∧ w = reg.encode) ∨
        (∃ c, reg.offset = .constant c ∧ ¬ reg.offset.Encodes) ∧ 0 ≤ w.offsetParamId) := by
  induction carried with
  | @read r w mem returned starts =>
    rw [r.wrapper?_eq] at starts
    obtain ⟨reg, reads, rfl⟩ := Option.map_eq_some_iff.mp starts
    refine ⟨reg, .read mem returned reads, ?_⟩
    by_cases encodes : reg.offset.Encodes
    · exact .inl ⟨.read mem returned reads encodes, rfl⟩
    · obtain ⟨base, offset, size⟩ := reg
      cases offset with
      | param i => exact absurd trivial encodes
      | constant c =>
        refine .inr ⟨⟨c, rfl, encodes⟩, ?_⟩
        rw [Register.encode_offsetParamId]
        have bounded := small _ _ c (.read mem returned reads) rfl
        exact Int.not_lt.mp (mt (encode_constant_neg bounded).mp encodes)
  | @call func w w' call callee site returned up ih =>
    obtain ⟨reg, wraps, ⟨kept, rfl⟩ | ⟨⟨c, isConstant, collides⟩, nonneg⟩⟩ := ih
    · rw [reg.inCaller_encode kept.encodes] at up
      obtain ⟨offset, carried, rfl⟩ := Option.map_eq_some_iff.mp up
      exact ⟨_, .call wraps site returned (Offset.inCaller_of_carried carried),
        .inl ⟨.call kept site returned carried, rfl⟩⟩
    · refine ⟨reg, ?_, .inr ⟨⟨c, isConstant, collides⟩, ?_⟩⟩
      · have same : reg = { reg with offset := .constant c } := by rw [← isConstant]
        rw [same]
        exact .call wraps site returned (by rw [isConstant]; rfl)
      · rw [Wrapper.inCaller_of_nonneg nonneg] at up
        obtain ⟨j, -, rfl⟩ := Option.map_eq_some_iff.mp up
        exact Int.natCast_nonneg j

/-- Constants that are not taken for something else are kept, and so are parameters as long as they are passed on. -/
theorem Wraps.kept
    (constants : ∀ func reg c, M.Wraps func reg → reg.offset = .constant c → 1 < c ∧ c ≤ 2147483648)
    (params : ∀ func reg i call value, M.Wraps func reg → reg.offset = .param i → M.CallSite func call →
      call.returned = true → call.args.getD i .other ≠ .constantInt value)
    {func : φ} {reg : Register} (wraps : M.Wraps func reg) : M.Kept func reg := by
  induction wraps with
  | @read r reg mem returned reads =>
    refine .read mem returned reads ?_
    cases isOffset : reg.offset with
    | param i => trivial
    | constant c =>
      obtain ⟨above, below⟩ := constants r.func reg c (.read mem returned reads) isOffset
      exact ⟨Nat.lt_trans Nat.zero_lt_one above, below⟩
  | @call func reg offset call callee site returned up ih =>
    refine .call ih site returned ?_
    cases isOffset : reg.offset with
    | constant c =>
      rw [isOffset] at up
      have notOne : c ≠ 1 := (constants func reg c callee isOffset).1.ne'
      rw [Offset.carried, if_neg notOne]
      exact up
    | param i =>
      rw [isOffset, Offset.inCaller] at up
      have notConstant := fun value => params func reg i call value callee isOffset site returned
      rw [Offset.carried]
      split at up
      next value isConstant => exact absurd isConstant (notConstant value)
      next => exact up

variable [LinearOrder φ] [DecidableEq κ]

theorem Collected.known {t : Tables φ κ} (collected : M.Collected t)
    (codes : ∀ func reg w, M.Kept func reg → M.Carried func w → w = reg.encode) {func : φ} {reg : Register}
    (kept : M.Kept func reg) : func ∈ t.mmioReadWrappers := by
  induction kept with
  | @read r reg mem returned reads _ =>
    exact collected.reads r mem returned reg.encode (by rw [r.wrapper?_eq, reads, Option.map_some])
  | @call func reg offset call callee site returned up ih =>
    obtain ⟨w, carried, above⟩ := collected.sites func ih call site returned
    obtain rfl := codes func reg w callee carried
    exact above _ (by rw [reg.inCaller_encode callee.encodes, up, Option.map_some])

end Module

theorem Register.decode_encode {reg : Register} (encodes : reg.offset.Encodes) (lower : -2147483648 ≤ reg.base)
    {func : φ} {args : List Value} {value : Nat} (known : M.CallValue func reg.offset args value)
    (fits : reg.base + value < 2147483648) :
    getOffsetSizeInMMIOReadCall args reg.encode.toList = some (reg.base + value, reg.size) := by
  obtain ⟨base, offset, size⟩ := reg
  have exact : toInt (base + value) = base + value := toInt_of_bounds (by dsimp only at lower; omega) fits
  cases known with
  | constant =>
    have negative := (encode_constant_neg encodes.lt).mpr encodes
    rw [Wrapper.toList, encode_offsetParamId, getOffsetSizeInMMIOReadCall, if_pos negative]
    refine congrArg (fun offset => some (offset, size)) ?_
    exact (toInt_add_encode base value).trans exact
  | @param i call value site passed =>
    have nonneg : ¬ (i : Int) < 0 := Int.not_lt.mpr (Int.natCast_nonneg i)
    simp only [Wrapper.toList, encode, Offset.encode, getOffsetSizeInMMIOReadCall, if_neg nonneg, Int.toNat_natCast,
      passed, exact]

/-- Whatever a call is resolved to is an `int`. -/
theorem getOffsetSizeInMMIOReadCall_lt {args : List Value} {vec : List Int} {offset size : Int}
    (resolved : getOffsetSizeInMMIOReadCall args vec = some (offset, size)) : offset < 2147483648 := by
  unfold getOffsetSizeInMMIOReadCall at resolved
  split at resolved
  · split at resolved
    · cases resolved
      exact (toInt_bounds _).2
    · split at resolved
      · cases resolved
        exact (toInt_bounds _).2
      · cases resolved
  · cases resolved

namespace Driver

variable {D : Driver φ κ}

theorem le_base {func : φ} {reg : Register} (wraps : D.Wraps func reg) : -2147483648 ≤ reg.base := by
  induction wraps with
  | @read r reg mem returned reads =>
    obtain ⟨offset, -, rfl⟩ := Option.map_eq_some_iff.mp reads
    have bounds := toInt_bounds r.baseOff
    rw [D.intBases r mem] at bounds
    dsimp only
    split
    · decide
    · exact bounds.1
  | call _ _ _ _ ih => exact ih

theorem Fits.constant_lt (fits : D.Fits) (func : φ) (reg : Register) (c : Nat) (wraps : D.Wraps func reg)
    (isConstant : reg.offset = .constant c) : c < 4294967296 := by
  have sum := fits func reg wraps [] c (by rw [isConstant]; exact .constant c [])
  have lower := le_base wraps
  omega

variable [LinearOrder φ] [Fintype φ] [DecidableEq κ]

theorem Lossless.fits (lossless : D.Lossless) : D.Fits := by
  obtain ⟨t, -, resolves⟩ := lossless
  intro func reg wraps args value known
  obtain ⟨vec, -, resolved⟩ := Option.bind_eq_some_iff.mp (resolves func reg wraps args value known)
  exact getOffsetSizeInMMIOReadCall_lt resolved

theorem Lossless.kept (lossless : D.Lossless) {func : φ} {reg : Register} (wraps : D.Wraps func reg) :
    D.Kept func reg := by
  have small := lossless.fits.constant_lt
  obtain ⟨t, result, resolves⟩ := lossless
  obtain ⟨t', result', collected⟩ := Module.collectMMIOReadWrappers_spec (M := D.toModule)
  obtain rfl : t = t' := Option.some.inj (result.symm.trans result')
  cases isOffset : reg.offset with
  | param i => exact wraps.kept_of_param isOffset
  | constant c =>
    have read := resolves func reg wraps [] c (by rw [isOffset]; exact .constant c [])
    obtain ⟨vec, entry, resolved⟩ := Option.bind_eq_some_iff.mp read
    obtain ⟨w, carried, rfl⟩ := collected.sound.wrappers func vec entry
    obtain ⟨reg', wraps', ⟨kept, -⟩ | ⟨-, nonneg⟩⟩ := carried.register small
    · rwa [D.oneRegister func reg reg' wraps wraps']
    · -- a constant that is taken for a parameter has no value at a call without arguments
      rw [Wrapper.toList, getOffsetSizeInMMIOReadCall, if_neg (Int.not_lt.mpr nonneg)] at resolved
      cases resolved

theorem Fits.lossless (fits : D.Fits) (all : ∀ func reg, D.Wraps func reg → D.Kept func reg) : D.Lossless := by
  obtain ⟨t, result, collected⟩ := Module.collectMMIOReadWrappers_spec (M := D.toModule)
  have codes : ∀ func reg w, D.Kept func reg → D.Carried func w → w = reg.encode := by
    intro func reg w kept carried
    obtain ⟨reg', wraps', ⟨-, code⟩ | ⟨⟨c, -, collides⟩, -⟩⟩ := carried.register fits.constant_lt
    · rw [code, D.oneRegister func reg' reg wraps' kept.wraps]
    · exact absurd (all func reg' wraps').encodes collides
  refine ⟨t, result, fun func reg wraps args value known => ?_⟩
  have kept := all func reg wraps
  obtain ⟨vec, entry⟩ := Option.isSome_iff_exists.mp (AList.lookup_isSome.mpr (collected.known codes kept))
  obtain ⟨w, carried, rfl⟩ := collected.sound.wrappers func vec entry
  rw [Tables.readSource, entry, Option.bind_some, codes func reg w kept carried]
  exact Register.decode_encode kept.encodes (le_base wraps) known (fits func reg wraps args value known)

/-- Calls are resolved to the right registers exactly when all registers are kept and their offsets are `int`s; they
    are kept when every constant offset is above `1`, up to half the range of `int`, and no wrapper passes a constant
    to another one. -/
theorem lossless_iff (D : Driver φ κ) :
    (D.Lossless ↔ (∀ func reg, D.Wraps func reg → D.Kept func reg) ∧ D.Fits) ∧
    ((∀ func reg c, D.Wraps func reg → reg.offset = .constant c → 1 < c ∧ c ≤ 2147483648) →
      (∀ func reg i call value, D.Wraps func reg → reg.offset = .param i → D.CallSite func call →
        call.returned = true → call.args.getD i .other ≠ .constantInt value) →
      D.Fits → D.Lossless) := by
  refine ⟨⟨fun lossless => ⟨fun _ _ => lossless.kept, lossless.fits⟩, fun both => both.2.lossless both.1⟩, ?_⟩
  intro constants params fits
  exact fits.lossless fun _ _ => Module.Wraps.kept constants params

end Driver

end

/-! ## Offsets `0` and `1` -/

/-- Function `0` returns the register at offset `c`, and function `1` returns what function `0` returns. -/
def accessors (c : GEPOffset) : Module (Fin 2) Unit where
  callIoReads := [⟨0, true, 4, 64, .gepConstant c⟩]
  funcCallSites
    | 0 => [⟨1, [], true⟩]
    | 1 => []
  indirectCalls := []
  func2KMI _ := []

theorem accessors_wraps {c : GEPOffset} {func : Fin 2} {reg : Register} (wraps : (accessors c).Wraps func reg) :
    reg = ⟨64, .constant c.1.toNat, 4⟩ := by
  induction wraps with
  | read mem _ reads =>
    cases List.mem_singleton.mp mem
    exact (Option.some.inj reads).symm
  | call _ _ _ up ih =>
    subst ih
    cases up
    rfl

theorem accessors_wraps_zero (c : GEPOffset) : (accessors c).Wraps 0 ⟨64, .constant c.1.toNat, 4⟩ :=
  .read (r := ⟨0, true, 4, 64, .gepConstant c⟩) List.mem_cons_self rfl rfl

theorem accessors_wraps_one (c : GEPOffset) : (accessors c).Wraps 1 ⟨64, .constant c.1.toNat, 4⟩ :=
  have site : (accessors c).CallSite 0 ⟨1, [], true⟩ := .inl List.mem_cons_self
  .call (accessors_wraps_zero c) site rfl rfl

def accessorsDriver (c : GEPOffset) : Driver (Fin 2) Unit where
  toModule := accessors c
  oneRegister _ _ _ wraps wraps' := (accessors_wraps wraps).trans (accessors_wraps wraps').symm
  intBases r mem := by
    cases List.mem_singleton.mp mem
    rfl

/-- At offset `0` the call of function `0` is not resolved, and at offset `1` the one of function `1` is not. -/
theorem not_lossless_smallOffsets :
    ¬ (accessorsDriver ⟨0, by decide⟩).Lossless ∧ ¬ (accessorsDriver ⟨1, by decide⟩).Lossless := by
  constructor
  · rintro ⟨t, result, resolves⟩
    have read := resolves 0 _ (accessors_wraps_zero _) [.other] 0 (.constant 0 _)
    have computed : ((accessorsDriver ⟨0, by decide⟩).collectMMIOReadWrappers.bind fun t => t.readSource 0 [.other]) =
        none := by decide
    rw [result, Option.bind_some, read] at computed
    cases computed
  · rintro ⟨t, result, resolves⟩
    have read := resolves 1 _ (accessors_wraps_one _) [] 1 (.constant 1 _)
    have computed : ((accessorsDriver ⟨1, by decide⟩).collectMMIOReadWrappers.bind fun t => t.readSource 1 []) =
        none := by decide
    rw [result, Option.bind_some, read] at computed
    cases computed

end DevFuzz.Wrappers
