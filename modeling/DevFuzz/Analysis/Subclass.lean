import DevFuzz.Analysis.DMALengths
import DevFuzz.Analysis.Displacements
import DevFuzz.Lib.Collections
import Mathlib.Data.String.Basic

/-! # Structures behind a structure

A driver keeps a structure `T` of its own right behind a structure `S` of the kernel, so that an
access past the end of `S` is one to `T`.  Three functions of `stage2/src/apstage2.cpp`
translate the offset.  `findStructMemberTypeInSubclass` finds the right member of `T`.
`findTypeOffsetAlias` subtracts the offset from the size of `S`, and so finds something at the end of `S`
alone.  `identifyKMIByStore` asks for `T` no further than to the end of `S`, takes the type of the
member for `T`, and subtracts the size of that: it never records a function under `T`
(`resolves_iff`).
-/

namespace DevFuzz.Analysis.Subclass

open DevFuzz.Lib DevFuzz.Stage2

/-! ## Types -/

/-- A structure is known by its name. -/
inductive LType (ν κ : Type) where
  | struct (name : ν)
  | pointer (elem : LType ν κ)
  | function (signature : κ)
  | other (kind : κ)
  deriving DecidableEq

namespace LType

variable {ν κ : Type}

def getPointerBaseType : LType ν κ → LType ν κ
  | pointer elem => elem.getPointerBaseType
  | t => t

/-- `dyn_cast<StructType>` -/
def asStruct : LType ν κ → Option ν
  | struct name => some name
  | _ => none

def isPointerTy : LType ν κ → Bool
  | pointer _ => true
  | _ => false

end LType

/-- A `StructLayout` with the offsets and types of the elements.  The size in bits is a `uint64_t` as well. -/
structure StructLayout (ν κ : Type) where
  size : UInt64
  elements : List (UInt64 × LType ν κ)
  size_lt : size.toNat < 2305843009213693952

/-- The `DataLayout` of a module.  No structure is an element of itself. -/
structure DataLayout (ν κ : Type) where
  getStructLayout : ν → StructLayout ν κ
  not_self : ∀ name, ∀ element ∈ (getStructLayout name).elements, element.2 ≠ .struct name

/-- A field, as `TypeOffset` and its key have it. -/
structure TypeOffset (ν : Type) where
  type : ν
  offset : Int
  deriving DecidableEq

/-! ## The translations -/

section

variable {ν κ : Type} (dl : DataLayout ν κ)

def DataLayout.size (name : ν) : UInt64 := (dl.getStructLayout name).size

def getTypeByOffset (base : LType ν κ) (offset : UInt64) : Option (LType ν κ) :=
  match base with
  | .struct st =>
    if dl.size st ≤ offset then none
    else ((dl.getStructLayout st).elements.find? fun element => element.1 = offset).map Prod.snd
  | _ => none

/-- A user of a pointer.  Of a GEP, whether the pointer is its pointer operand, what `getGEPOffset` returns for it and
    the types that it is cast to. -/
inductive User (ν κ : Type) where
  | gep (isPointerOperand : Bool) (offset : Int) (casts : List (LType ν κ))
  | other

def findStructTypeCasted (casts : List (LType ν κ)) : Option ν :=
  casts.findSome? fun t => t.getPointerBaseType.asStruct

/-- The loop of `findStructMemberTypeInSubclass`. -/
def subclassType (superClass : ν) (users : List (User ν κ)) : Option ν :=
  users.findSome? fun
    | .gep true offset casts => if offset = asInt (dl.size superClass) then findStructTypeCasted casts else none
    | _ => none

def findStructMemberTypeInSubclass (superClass : ν) (offset : Int) (users : List (User ν κ)) : Option (LType ν κ) :=
  match subclassType dl superClass users with
  | none => none
  | some subclass =>
    let offsetIntoSub := offset - asInt (dl.size superClass)
    if offsetIntoSub < 0 then none else getTypeByOffset dl (.struct subclass) (UInt64.ofInt offsetIntoSub)

/-- The order of the names is that of the addresses of the types.  `tables` are those of the pass, and
    `findMemRegionTypeByCast` works on two sets of this call. -/
def findTypeOffsetAlias [LinearOrder ν] (casts : List (CastInst ν (TypeOffset ν))) (tables : DmaTables ν (TypeOffset ν))
    (t : LType ν κ) (offset : Int) : Option (TypeOffset ν) :=
  match t with
  | .struct st =>
    let found := findMemRegionTypeByCast casts { tables with dmaAddrStoreDst := [⟨st, offset⟩], dmaBufferTypes := [] }
    let res : OrderedSet ν := found.dmaBufferTypes.foldl OrderedSet.insert .empty
    let offsetIntoAlias := asInt (dl.size st) - offset
    (res.elements.find? fun aat => UInt64.ofInt offsetIntoAlias < dl.size aat).map fun aat => ⟨aat, offsetIntoAlias⟩
  | _ => none

/-- The fields under which `doFindMMIORegionPtrs` records a pointer that is stored at an offset of a structure. -/
def mmioSink [LinearOrder ν] (casts : List (CastInst ν (TypeOffset ν))) (tables : DmaTables ν (TypeOffset ν))
    (srcType : ν) (offset : Int) : Displacements.Sink (TypeOffset ν) :=
  if offset = -1 then ⟨none, none⟩
  else
    { key := some ⟨srcType, offset⟩
      aliasKey :=
        match getTypeByOffset dl (.struct srcType) (UInt64.ofInt offset) with
        | some _ => none
        | none => findTypeOffsetAlias dl casts tables (.struct srcType) offset }

/-! ## Function pointers -/

variable {φ : Type}

/-- The maps that `identifyKMIByStore` fills. -/
structure KMITables (ν κ φ : Type) where
  func2KMI : φ → List (TypeOffset ν)
  type2Funcs : Option (LType ν κ) → List φ

/-- A `StoreInst`.  `gep` is there if the pointer operand is a GEP: its offset and the users of its own
    pointer operand.  `dstTp` is the source type of the GEP, or else the type of the pointer operand. -/
structure StoreInst (ν κ φ : Type) where
  stored : φ
  storedTp : LType ν κ
  dstTp : LType ν κ
  gep : Option (Int × List (User ν κ))

variable [DecidableEq ν] [DecidableEq κ] [DecidableEq φ]

omit [DecidableEq ν] [DecidableEq κ] in
/-- `func2KMI[func].push_back(tp_off)` -/
def KMITables.pushBack (tables : KMITables ν κ φ) (func : φ) (tpOff : TypeOffset ν) : KMITables ν κ φ :=
  { tables with func2KMI := Function.update tables.func2KMI func (tables.func2KMI func ++ [tpOff]) }

/-- `type2Funcs[func_ptr_tp].insert(func)` -/
def KMITables.insertFunc (tables : KMITables ν κ φ) (funcPtrTp : Option (LType ν κ)) (func : φ) : KMITables ν κ φ :=
  { tables with type2Funcs := Function.update tables.type2Funcs funcPtrTp ((tables.type2Funcs funcPtrTp).insert func) }

def identifyKMIByStore (st : StoreInst ν κ φ) (tables : KMITables ν κ φ) : KMITables ν κ φ :=
  let funcPtrTp := if st.storedTp.isPointerTy then some st.storedTp else none
  let offset := (st.gep.map Prod.fst).getD 0
  match st.storedTp.getPointerBaseType, st.dstTp with
  | .function _, .struct dstTp =>
    if offset = -1 then tables
    else
      let aliasTp :=
        match st.gep with
        | some (_, users) =>
          if UInt64.ofInt offset ≤ dl.size dstTp then findStructMemberTypeInSubclass dl dstTp offset users else none
        | none => none
      let tables := (tables.pushBack st.stored ⟨dstTp, offset⟩).insertFunc funcPtrTp st.stored
      match aliasTp with
      | some (.struct aliasTp) =>
        tables.pushBack st.stored ⟨aliasTp, asInt (UInt64.ofInt offset - dl.size aliasTp)⟩
      | _ => tables
  | _, _ => tables

end

theorem toNat_ofInt {x : Int} (nonneg : 0 ≤ x) (small : x < 18446744073709551616) :
    ((UInt64.ofInt x).toNat : Int) = x := by
  rw [UInt64.ofInt, UInt64.toNat_ofNat']
  omega

/-! ## Accesses past the end -/

/-- An offset of `superClass` that lies in the structure behind it, which is the one that a cast of its end shows, and
    a function that is stored there. -/
structure PastEnd (ν κ φ : Type) where
  dl : DataLayout ν κ
  superClass : ν
  subclass : ν
  users : List (User ν κ)
  found : subclassType dl superClass users = some subclass
  offset : Int
  low : (dl.size superClass).toNat ≤ offset
  high : offset < (dl.size superClass).toNat + (dl.size subclass).toNat
  isInt : offset < 2147483648
  func : φ
  funcTp : LType ν κ
  isFunctionTy : ∃ signature, funcTp.getPointerBaseType = .function signature

namespace PastEnd

variable {ν κ φ : Type} (a : PastEnd ν κ φ)

/-- Where the access goes. -/
def place : TypeOffset ν := ⟨a.subclass, a.offset - (a.dl.size a.superClass).toNat⟩

/-- The first element of the structure behind that starts at the place. -/
def HasType (t : LType ν κ) : Prop :=
  ∃ start before after, (a.dl.getStructLayout a.subclass).elements = before ++ (start, t) :: after ∧
    (start.toNat : Int) = a.place.offset ∧ ∀ element ∈ before, (element.1.toNat : Int) ≠ a.place.offset

/-- The store of the function. -/
def store : StoreInst ν κ φ := ⟨a.func, a.funcTp, .struct a.superClass, some (a.offset, a.users)⟩

/-- The three translations agree. -/
structure Resolves [LinearOrder ν] [DecidableEq κ] [DecidableEq φ] (casts : List (CastInst ν (TypeOffset ν)))
    (lengths : DmaTables ν (TypeOffset ν)) (kmi : KMITables ν κ φ) : Prop where
  aliased : ∀ found, findTypeOffsetAlias a.dl casts lengths (.struct a.superClass : LType ν κ) a.offset = some found →
    found.offset = a.place.offset
  member : ∀ t, findStructMemberTypeInSubclass a.dl a.superClass a.offset a.users = some t ↔ a.HasType t
  recorded : a.place ∈ (identifyKMIByStore a.dl a.store kmi).func2KMI a.func

theorem asInt_size : asInt (a.dl.size a.superClass) = (a.dl.size a.superClass).toNat := by
  have low := a.low
  have isInt := a.isInt
  exact asInt_of_lt (by omega)

theorem offset_nonneg : 0 ≤ a.offset := Int.le_trans (Int.natCast_nonneg _) a.low

theorem offset_ne : ¬ a.offset = -1 := by
  have nonneg := a.offset_nonneg
  omega

theorem toNat_offset : ((UInt64.ofInt a.offset).toNat : Int) = a.offset :=
  toNat_ofInt a.offset_nonneg (Int.lt_trans a.isInt (by decide))

theorem place_nonneg : 0 ≤ a.place.offset := Int.sub_nonneg.mpr a.low

theorem place_lt : a.place.offset < (a.dl.size a.subclass).toNat := Int.sub_left_lt_of_lt_add a.high

/-- The place as a `uint64_t`. -/
theorem toNat_place : ((UInt64.ofInt a.place.offset).toNat : Int) = a.place.offset := by
  have inside := a.place_lt
  have size := (a.dl.size a.subclass).toNat_lt
  exact toNat_ofInt a.place_nonneg (by omega)

theorem ofInt_place_eq_iff (start : UInt64) :
    start = UInt64.ofInt a.place.offset ↔ (start.toNat : Int) = a.place.offset := by
  rw [← UInt64.toNat_inj, ← Int.ofNat_inj, toNat_place]

/-! ### The type of the member -/

theorem findStructMemberTypeInSubclass_eq :
    findStructMemberTypeInSubclass a.dl a.superClass a.offset a.users =
      ((a.dl.getStructLayout a.subclass).elements.find? fun element => element.1 = UInt64.ofInt a.place.offset).map
        Prod.snd := by
  have inside : ¬ a.dl.size a.subclass ≤ UInt64.ofInt a.place.offset := by
    have lt := a.place_lt
    rw [← a.toNat_place] at lt
    rw [UInt64.le_iff_toNat_le]
    omega
  have forward : ¬ a.offset - asInt (a.dl.size a.superClass) < 0 := by
    rw [a.asInt_size]
    exact Int.not_lt.mpr a.place_nonneg
  simp only [findStructMemberTypeInSubclass, a.found, if_neg forward, getTypeByOffset]
  rw [a.asInt_size]
  exact if_neg inside

theorem member_iff (t : LType ν κ) :
    findStructMemberTypeInSubclass a.dl a.superClass a.offset a.users = some t ↔ a.HasType t := by
  rw [a.findStructMemberTypeInSubclass_eq, Option.map_eq_some_iff]
  simp only [List.find?_eq_some_iff_append, Bool.not_eq_true', decide_eq_true_eq, decide_eq_false_iff_not,
    ofInt_place_eq_iff]
  constructor
  · rintro ⟨⟨start, _⟩, ⟨here, before, after, elements, earlier⟩, rfl⟩
    exact ⟨start, before, after, elements, here, earlier⟩
  · rintro ⟨start, before, after, elements, here, earlier⟩
    exact ⟨(start, t), ⟨here, before, after, elements, earlier⟩, rfl⟩

/-- No member of the structure behind is that structure. -/
theorem member_ne :
    findStructMemberTypeInSubclass a.dl a.superClass a.offset a.users ≠ some (.struct a.subclass) := by
  intro member
  obtain ⟨start, before, after, elements, -, -⟩ := (a.member_iff _).mp member
  refine a.dl.not_self a.subclass (start, .struct a.subclass) ?_ rfl
  rw [elements]
  exact List.mem_append_right before List.mem_cons_self

/-! ### The alias -/

section

variable [LinearOrder ν] (casts : List (CastInst ν (TypeOffset ν))) (lengths : DmaTables ν (TypeOffset ν))

/-- Past the end of the structure the difference is negative, and more than any size when it is taken for a
    `uint64_t`. -/
theorem offset_of_alias {found : TypeOffset ν}
    (aliased : findTypeOffsetAlias a.dl casts lengths (.struct a.superClass : LType ν κ) a.offset = some found) :
    found.offset = a.place.offset ∧ a.offset = (a.dl.size a.superClass).toNat := by
  obtain ⟨aat, first, rfl⟩ := Option.map_eq_some_iff.mp aliased
  have holds := List.find?_some first
  have small : (UInt64.ofInt (asInt (a.dl.size a.superClass) - a.offset)).toNat < (a.dl.size aat).toNat :=
    UInt64.lt_iff_toNat_lt.mp (of_decide_eq_true holds)
  have size : (a.dl.size aat).toNat < 2305843009213693952 := (a.dl.getStructLayout aat).size_lt
  have low := a.low
  have isInt := a.isInt
  rw [a.asInt_size, UInt64.ofInt, UInt64.toNat_ofNat'] at small
  simp only [a.asInt_size, place]
  omega

end

/-! ### The function pointer -/

section

variable [DecidableEq ν] [DecidableEq κ] [DecidableEq φ] (kmi : KMITables ν κ φ)

/-- What the store adds for the function. -/
def added : List (TypeOffset ν) :=
  ⟨a.superClass, a.offset⟩ ::
    if a.offset = (a.dl.size a.superClass).toNat then
      match findStructMemberTypeInSubclass a.dl a.superClass a.offset a.users with
      | some (.struct aliasTp) => [⟨aliasTp, asInt (UInt64.ofInt a.offset - a.dl.size aliasTp)⟩]
      | _ => []
    else []

theorem func2KMI_store : (identifyKMIByStore a.dl a.store kmi).func2KMI a.func = kmi.func2KMI a.func ++ a.added := by
  have guard : UInt64.ofInt a.offset ≤ a.dl.size a.superClass ↔ a.offset = (a.dl.size a.superClass).toNat := by
    have low := a.low
    have offset := a.toNat_offset
    rw [UInt64.le_iff_toNat_le]
    omega
  obtain ⟨signature, isFunctionTy⟩ := a.isFunctionTy
  simp only [identifyKMIByStore, store, isFunctionTy, Option.map_some, Option.getD_some, if_neg a.offset_ne, guard, added]
  by_cases atEnd : a.offset = (a.dl.size a.superClass).toNat
  · simp only [if_pos atEnd]
    split
    · simp [KMITables.pushBack, KMITables.insertFunc]
    · simp [KMITables.pushBack, KMITables.insertFunc]
  · simp [if_neg atEnd, KMITables.pushBack, KMITables.insertFunc]

omit [DecidableEq ν] [DecidableEq κ] [DecidableEq φ] in
/-- The place is in neither: the structure behind has another size or another name, and the member is
    not the structure that it is a member of. -/
theorem place_notMem_added : a.place ∉ a.added := by
  have first : a.place ≠ ⟨a.superClass, a.offset⟩ := by
    intro same
    obtain ⟨type, offset⟩ := TypeOffset.mk.inj same
    have high := a.high
    have low := a.low
    rw [type] at high
    omega
  intro member
  rcases List.mem_cons.mp member with same | member
  · exact first same
  · split_ifs at member
    · split at member
      · rename_i aliasTp found
        have same : a.subclass = aliasTp := congrArg TypeOffset.type (List.mem_singleton.mp member)
        exact a.member_ne (same ▸ found)
      · exact List.not_mem_nil member
    · exact List.not_mem_nil member

end

/-- An access past the end resolves to the same place in the structure behind if the function had been
    recorded there before, for the store does not do it. -/
theorem resolves_iff [LinearOrder ν] [DecidableEq κ] [DecidableEq φ] (casts : List (CastInst ν (TypeOffset ν)))
    (lengths : DmaTables ν (TypeOffset ν)) (kmi : KMITables ν κ φ) :
    a.Resolves casts lengths kmi ↔ a.place ∈ kmi.func2KMI a.func := by
  have store : a.place ∈ (identifyKMIByStore a.dl a.store kmi).func2KMI a.func ↔ a.place ∈ kmi.func2KMI a.func := by
    rw [a.func2KMI_store, List.mem_append, or_iff_left a.place_notMem_added]
  constructor
  · intro resolves
    exact store.mp resolves.recorded
  · intro before
    exact ⟨fun _ aliased => (a.offset_of_alias casts lengths aliased).1, a.member_iff, store.mpr before⟩

end PastEnd

/-! ### A driver that loses a function -/

/-- One word. -/
def netDevice : StructLayout String Unit := ⟨8, [(0, .other ())], by decide⟩

/-- Two function pointers. -/
def adapter : StructLayout String Unit := ⟨16, [(0, .pointer (.function ())), (8, .pointer (.function ()))], by decide⟩

def driverLayout (name : String) : StructLayout String Unit := if name = "net_device" then netDevice else adapter

theorem driverLayout_not_self (name : String) : ∀ element ∈ (driverLayout name).elements, element.2 ≠ .struct name := by
  unfold driverLayout
  split_ifs
  · simp [netDevice]
  · simp [adapter]

def driver : DataLayout String Unit := ⟨driverLayout, driverLayout_not_self⟩

/-- The end of a `net_device` is cast to an `adapter`. -/
def driverUsers : List (User String Unit) := [.gep true 8 [.pointer (.struct "adapter")]]

theorem driver_found : subclassType driver "net_device" driverUsers = some "adapter" := by decide

theorem driver_low : (driver.size "net_device").toNat ≤ (16 : Int) := by decide

theorem driver_high : (16 : Int) < (driver.size "net_device").toNat + (driver.size "adapter").toNat := by decide

/-- A function is stored at offset 16 of the `net_device`, which is the second member of the `adapter`. -/
def secondMember : PastEnd String Unit Unit where
  dl := driver
  superClass := "net_device"
  subclass := "adapter"
  users := driverUsers
  found := driver_found
  offset := 16
  low := driver_low
  high := driver_high
  isInt := by decide
  func := ()
  funcTp := .pointer (.function ())
  isFunctionTy := ⟨(), rfl⟩

/-- It is recorded for the `net_device` alone. -/
theorem not_resolves_secondMember :
    ¬ secondMember.Resolves [⟨some "adapter", some ⟨"net_device", 8⟩⟩] ⟨[], [], fun _ => none, fun _ => none⟩
      ⟨fun _ => [], fun _ => []⟩ := by
  intro resolves
  have recorded := resolves.recorded
  rw [secondMember.func2KMI_store] at recorded
  exact secondMember.place_notMem_added recorded

end DevFuzz.Analysis.Subclass
