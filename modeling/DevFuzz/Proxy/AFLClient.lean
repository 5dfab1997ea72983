import Mathlib.Data.List.Count
import Mathlib.Data.Nat.Bitwise

/-! # The coverage map

`AFLClient` of `proxy/aflclient.h` counts edges in the map it shares with the fuzzer.  An edge's index
mixes the location with the one before it, which the object carries in `prev_loc`.  The
constructor does not set that member, so the first index is what the memory held before:
`mapped_iff` says for which contents the indices stay in the map and are those of the locations
alone.  The fork server between the constructor's two parts works on descriptors and processes only.
-/

namespace DevFuzz.Proxy

def MAP_SIZE_POW2 : Nat := 16

def MAP_SIZE : UInt64 := 1 <<< UInt64.ofNat MAP_SIZE_POW2

/-- The bytes from an address on. -/
abbrev Area := UInt64 → UInt8

def Area.set (area : Area) (idx : UInt64) (byte : UInt8) : Area := fun i => if i = idx then byte else area i

/-- What the constructor asks of the system. -/
structure Host where
  /-- the number in the variable `__AFL_SHM_ID`, if it is set -/
  shmEnv : Option Int
  /-- the segment, or `none` for `(void *)-1` -/
  shmat : Int → Option Area

/-- What the object's memory holds in the members that have no initialiser. -/
structure Content where
  prevLoc : UInt64
deriving DecidableEq

structure AFLClient where
  aflInstRms : UInt32
  /-- `none` is the null pointer -/
  aflAreaPtr : Option Area
  prevLoc : UInt64
  shmId : Int

namespace AFLClient

def AFLSetup (host : Host) (client : AFLClient) : Bool × AFLClient :=
  match host.shmEnv with
  | none => (true, client)
  | some id =>
    match host.shmat id with
    | none => (false, { client with shmId := id, aflAreaPtr := none })
    | some area => (true, { client with shmId := id, aflAreaPtr := some (area.set 0 1) })

/-- The object in the process in which the constructor returns. -/
def new (host : Host) (content : Content) : AFLClient :=
  let client : AFLClient := { aflInstRms := MAP_SIZE.toUInt32, aflAreaPtr := none, prevLoc := content.prevLoc, shmId := -1 }
  match client.AFLSetup host with
  | (false, client) => client
  | (true, client) => { client with aflAreaPtr := client.aflAreaPtr.map fun area => area.set 0 1 }

/-- The location, folded into the map. -/
def fold (loc : UInt64) : UInt64 := ((loc >>> 4) ^^^ (loc <<< 8)) &&& (MAP_SIZE - 1)

/-- One call, with the index of the map that it increments. -/
def AFLMaybeLog (loc : UInt64) (client : AFLClient) : Option UInt64 × AFLClient :=
  match client.aflAreaPtr with
  | none => (none, client)
  | some area =>
    let cur := fold loc
    if cur ≥ client.aflInstRms.toUInt64 then (none, client)
    else
      let idx := cur ^^^ client.prevLoc
      (some idx, { client with aflAreaPtr := some (area.set idx (area idx + 1)), prevLoc := cur >>> 1 })

/-- A sequence of calls, with the indices that they increment. -/
def logAll : List UInt64 → AFLClient → List UInt64 × AFLClient
  | [], client => ([], client)
  | loc :: locs, client =>
    let (idx?, next) := client.AFLMaybeLog loc
    let (rest, last) := next.logAll locs
    (idx?.toList ++ rest, last)

/-! ## One call -/

/-- The object as long as it runs. -/
structure Attached (area : Area) (client : AFLClient) : Prop where
  whole : client.aflInstRms.toUInt64 = MAP_SIZE
  pointer : client.aflAreaPtr = some area

variable {area : Area} {client : AFLClient}

theorem toNat_fold_lt (loc : UInt64) : (fold loc).toNat < 2 ^ MAP_SIZE_POW2 := by
  unfold fold
  rw [UInt64.toNat_and]
  exact Nat.and_lt_two_pow _ (by decide)

/-- The test against `afl_inst_rms` never fails, since the location has been folded. -/
theorem fold_lt (loc : UInt64) : ¬ fold loc ≥ MAP_SIZE := by
  rw [ge_iff_le, UInt64.not_le, UInt64.lt_iff_toNat_lt]
  exact toNat_fold_lt loc

theorem Attached.log (attached : Attached area client) (loc : UInt64) :
    ∃ next, client.AFLMaybeLog loc = (some (fold loc ^^^ client.prevLoc), next) ∧ next.prevLoc = fold loc >>> 1 ∧
      Attached (area.set (fold loc ^^^ client.prevLoc) (area (fold loc ^^^ client.prevLoc) + 1)) next := by
  unfold AFLMaybeLog
  rw [attached.pointer, attached.whole]
  simp only [if_neg (fold_lt loc)]
  exact ⟨_, rfl, rfl, ⟨attached.whole, rfl⟩⟩

theorem toNat_xor_lt {a b : UInt64} (left : a.toNat < 2 ^ MAP_SIZE_POW2) (right : b.toNat < 2 ^ MAP_SIZE_POW2) :
    (a ^^^ b).toNat < 2 ^ MAP_SIZE_POW2 := by
  rw [UInt64.toNat_xor]
  exact Nat.xor_lt_two_pow left right

theorem toNat_half_lt {a : UInt64} (small : a.toNat < 2 ^ MAP_SIZE_POW2) : (a >>> 1).toNat < 2 ^ MAP_SIZE_POW2 := by
  rw [UInt64.toNat_shiftRight]
  exact Nat.lt_of_le_of_lt (Nat.shiftRight_le _ _) small

/-! ## Sequences of calls -/

/-- From a previous location in the map, every index is in the map. -/
theorem Attached.logAll_lt (attached : Attached area client) (small : client.prevLoc.toNat < 2 ^ MAP_SIZE_POW2)
    (locs : List UInt64) : ∀ idx ∈ (client.logAll locs).1, idx.toNat < 2 ^ MAP_SIZE_POW2 := by
  induction locs generalizing area client with
  | nil => simp [logAll]
  | cons loc locs ih =>
    -- whatever the previous location was, the next one is half of a folded location
    obtain ⟨next, called, carried, attached'⟩ := attached.log loc
    have rest := ih attached' (by rw [carried]; exact toNat_half_lt (toNat_fold_lt loc))
    simp only [logAll, called, Option.toList_some, List.singleton_append, List.mem_cons]
    rintro idx (rfl | later)
    · exact toNat_xor_lt (toNat_fold_lt loc) small
    · exact rest idx later

/-- The map counts the calls by their indices, modulo the size of a byte. -/
theorem Attached.logAll_area (attached : Attached area client) (locs : List UInt64) :
    ∃ after, Attached after (client.logAll locs).2 ∧
      ∀ idx, after idx = area idx + .ofNat ((client.logAll locs).1.count idx) := by
  induction locs generalizing area client with
  | nil => exact ⟨area, attached, fun idx => by simp [logAll]⟩
  | cons loc locs ih =>
    obtain ⟨next, called, -, attached'⟩ := attached.log loc
    obtain ⟨after, last, counts⟩ := ih attached'
    simp only [logAll, called, Option.toList_some, List.singleton_append]
    refine ⟨after, last, fun idx => ?_⟩
    rw [counts idx]
    by_cases same : idx = fold loc ^^^ client.prevLoc
    · rw [← same, List.count_cons_self, Area.set, if_pos rfl, Nat.add_comm, UInt8.ofNat_add,
        UInt8.add_assoc]
      rfl
    · rw [List.count_cons_of_ne (Ne.symm same), Area.set, if_neg same]

theorem logAll_unattached (null : client.aflAreaPtr = none) (locs : List UInt64) : client.logAll locs = ([], client) := by
  induction locs with
  | nil => rfl
  | cons loc locs ih =>
    have called : client.AFLMaybeLog loc = (none, client) := by
      unfold AFLMaybeLog
      rw [null]
    simp only [logAll, called, ih, Option.toList_none, List.nil_append]

end AFLClient

/-! ## From the constructor on -/

/-- The map the object is given, if it is given one. -/
def Host.segment (host : Host) : Option Area := host.shmEnv.bind host.shmat

theorem AFLClient.new_attached {host : Host} {area : Area} (given : host.segment = some area) (content : Content) :
    ∃ area, AFLClient.Attached area (.new host content) ∧ (AFLClient.new host content).prevLoc = content.prevLoc := by
  obtain ⟨id, set, segment⟩ := Option.bind_eq_some_iff.mp given
  simp only [AFLClient.new, AFLClient.AFLSetup, set, segment, and_true]
  exact ⟨_, rfl, rfl⟩

theorem AFLClient.new_unattached {host : Host} (missing : host.segment = none) (content : Content) :
    (AFLClient.new host content).aflAreaPtr = none := by
  cases set : host.shmEnv with
  | none => simp only [AFLClient.new, AFLClient.AFLSetup, set, Option.map_none]
  | some id =>
    have segment : host.shmat id = none := by simpa [Host.segment, set] using missing
    simp only [AFLClient.new, AFLClient.AFLSetup, set, segment]

/-- The indices stay in the map, and those of another content are the same. -/
structure Mapped (host : Host) (content content' : Content) : Prop where
  inside : ∀ locs, ∀ idx ∈ ((AFLClient.new host content).logAll locs).1, idx < MAP_SIZE
  determined : ∀ locs, ((AFLClient.new host content).logAll locs).1 = ((AFLClient.new host content').logAll locs).1

/-- The location 0 shows what the object found in its memory. -/
theorem logAll_zero {host : Host} {area : Area} (given : host.segment = some area) (content : Content) :
    ((AFLClient.new host content).logAll [0]).1 = [content.prevLoc] := by
  obtain ⟨_, attached, found⟩ := AFLClient.new_attached given content
  obtain ⟨next, called, -⟩ := attached.log 0
  have zero : AFLClient.fold 0 = 0 := by decide
  rw [zero, UInt64.zero_xor, found] at called
  simp only [AFLClient.logAll, called, Option.toList_some, List.append_nil]

/-- The indices stay in the map and do not depend on the memory exactly if there is no map, or if the
    memory held an index of the map, and always the same. -/
theorem mapped_iff (host : Host) (content content' : Content) :
    Mapped host content content' ↔
      host.segment = none ∨ content.prevLoc < MAP_SIZE ∧ content.prevLoc = content'.prevLoc := by
  cases given : host.segment with
  | none =>
    have unlogged (content : Content) (locs : List UInt64) : ((AFLClient.new host content).logAll locs).1 = [] := by
      rw [AFLClient.logAll_unattached (AFLClient.new_unattached given content)]
    refine ⟨fun _ => .inl rfl, fun _ => ⟨fun locs idx logged => ?_, fun locs => ?_⟩⟩
    · rw [unlogged] at logged
      cases logged
    · rw [unlogged, unlogged]
  | some area =>
    have first := logAll_zero given content
    constructor
    · intro mapped
      -- one call at location 0 is enough to see the content
      refine .inr ⟨mapped.inside [0] _ (by rw [first]; exact List.mem_singleton_self _), ?_⟩
      have same := mapped.determined [0]
      rw [first, logAll_zero given content'] at same
      exact List.head_eq_of_cons_eq same
    · rintro (missing | ⟨small, same⟩)
      · cases missing
      · obtain ⟨_, attached, found⟩ := AFLClient.new_attached given content
        refine ⟨fun locs idx logged => ?_, fun locs => ?_⟩
        · exact UInt64.lt_iff_toNat_lt.mpr (attached.logAll_lt (found ▸ UInt64.lt_iff_toNat_lt.mp small) locs idx logged)
        · have equal : content = content' := congrArg Content.mk same
          rw [equal]

/-- With `0x10000` in the memory, the first call increments a byte behind the map. -/
theorem not_mapped_behind :
    ¬ Mapped ⟨some 0, fun _ => some fun _ => 0⟩ ⟨0x10000⟩ ⟨0x10000⟩ := by
  intro mapped
  have behind := mapped.inside [0] 0x10000 (by rw [logAll_zero rfl]; exact List.mem_singleton_self _)
  exact absurd behind (by decide)

end DevFuzz.Proxy
