import DevFuzz.Lib.Bytes

/-! # AUX data out of the ring

`PerfAuxBuffer` of `proxy/PerfAuxBuffer.h` takes the data of an AUX record out of the
ring into a buffer of its own.  Data that ends before the end of the ring is one copy;
any other data goes on at the start of the ring and is two.  The offset counts up for as long
as the process runs, so only its remainder is a place in the ring.
-/

namespace DevFuzz.Perf

open DevFuzz.Lib.Bytes

/-- `memcpy(&buffer[dst], &ring[src], len)` -/
structure Copy where
  dst : UInt64
  src : UInt64
  len : UInt64

def Copy.run (ring buffer : Memory) (c : Copy) : Memory :=
  copyInto buffer c.dst.toNat c.len.toNat fun i => ring (c.src.toNat + i)

structure PerfAuxBuffer where
  size : UInt64
  copies : List Copy

/-- `PerfAuxBuffer(ring, auxRingSize, auxOffset, auxSize)`.  All numbers are `size_t`. -/
def perfAuxBuffer (auxRingSize auxOffset auxSize : UInt64) : PerfAuxBuffer :=
  let realOffset := auxOffset % auxRingSize
  if realOffset + auxSize < auxRingSize then ⟨auxSize, [⟨0, realOffset, auxSize⟩]⟩
  else
    let size1 := auxRingSize - realOffset
    let size2 := auxSize - size1
    ⟨auxSize, [⟨0, realOffset, size1⟩, ⟨size1, 0, size2⟩]⟩

/-- The bytes of the buffer; `allocated` is what `malloc` has left in it. -/
def PerfAuxBuffer.data (b : PerfAuxBuffer) (ring allocated : Memory) : Memory := b.copies.foldl (Copy.run ring) allocated

/-- A record that fits into the ring. -/
structure AuxRecord where
  ringSize : UInt64
  offset : UInt64
  size : UInt64
  ringSize_pos : 0 < ringSize.toNat
  size_le : size.toNat ≤ ringSize.toNat
  /-- the ring and the buffer are two objects of one address space -/
  apart : ringSize.toNat + size.toNat ≤ 18446744073709551616

namespace AuxRecord

variable (r : AuxRecord)

def buffer : PerfAuxBuffer := perfAuxBuffer r.ringSize r.offset r.size

/-- The buffer holds the data of the record, and the copies keep to the ring and to the buffer. -/
structure Unrolled (ring allocated : Memory) : Prop where
  size : r.buffer.size = r.size
  byte : ∀ i < r.size.toNat, r.buffer.data ring allocated i = ring ((r.offset.toNat + i) % r.ringSize.toNat)
  reads : ∀ c ∈ r.buffer.copies, ∀ i < c.len.toNat, c.src.toNat + i < r.ringSize.toNat
  writes : ∀ c ∈ r.buffer.copies, ∀ i < c.len.toNat, c.dst.toNat + i < r.size.toNat

/-- `realOffset` -/
def place : UInt64 := r.offset % r.ringSize

theorem place_eq : r.place.toNat = r.offset.toNat % r.ringSize.toNat := UInt64.toNat_mod ..

theorem place_lt : r.place.toNat < r.ringSize.toNat := by
  rw [place_eq]
  exact Nat.mod_lt _ r.ringSize_pos

/-- The sum does not overflow. -/
theorem place_add_size : (r.place + r.size).toNat = r.place.toNat + r.size.toNat := by
  have := r.place_lt
  have := r.apart
  rw [UInt64.toNat_add]
  exact Nat.mod_eq_of_lt (by omega)

/-- A byte of the data, as long as the ring does not end before it. -/
theorem mod_of_lt {i : Nat} (inside : r.place.toNat + i < r.ringSize.toNat) :
    (r.offset.toNat + i) % r.ringSize.toNat = r.place.toNat + i := by
  rw [← Nat.mod_add_mod, ← r.place_eq, Nat.mod_eq_of_lt inside]

/-- The ring ends only once. -/
theorem mod_of_ge {i : Nat} (behind : r.ringSize.toNat ≤ r.place.toNat + i) (bound : i < r.size.toNat) :
    (r.offset.toNat + i) % r.ringSize.toNat = r.place.toNat + i - r.ringSize.toNat := by
  have := r.place_lt
  have := r.size_le
  rw [← Nat.mod_add_mod, ← r.place_eq, Nat.mod_eq_sub_mod behind, Nat.mod_eq_of_lt (by omega)]

theorem unrolled_of_lt (ring allocated : Memory) (room : r.place + r.size < r.ringSize) : r.Unrolled ring allocated := by
  have buffer : r.buffer = ⟨r.size, [⟨0, r.place, r.size⟩]⟩ := if_pos room
  rw [UInt64.lt_iff_toNat_lt, r.place_add_size] at room
  constructor
  · rw [buffer]
  · intro i inside
    rw [buffer, r.mod_of_lt (by omega)]
    simp [PerfAuxBuffer.data, Copy.run, copyInto, inside]
  · rw [buffer, List.forall_mem_singleton]
    intro i inside
    dsimp only at inside ⊢
    omega
  · rw [buffer, List.forall_mem_singleton]
    intro i inside
    simpa using inside

/-- The data ends with the ring or goes on at its start. -/
theorem unrolled_of_ge (ring allocated : Memory) (cut : ¬ r.place + r.size < r.ringSize) :
    r.Unrolled ring allocated := by
  have buffer : r.buffer = ⟨r.size, [⟨0, r.place, r.ringSize - r.place⟩,
      ⟨r.ringSize - r.place, 0, r.size - (r.ringSize - r.place)⟩]⟩ := if_neg cut
  rw [UInt64.lt_iff_toNat_lt, r.place_add_size] at cut
  have place := r.place_lt
  have first : (r.ringSize - r.place).toNat = r.ringSize.toNat - r.place.toNat :=
    UInt64.toNat_sub_of_le _ _ (UInt64.le_iff_toNat_le.mpr (by omega))
  have second : (r.size - (r.ringSize - r.place)).toNat = r.size.toNat - (r.ringSize.toNat - r.place.toNat) := by
    rw [UInt64.toNat_sub_of_le _ _ (UInt64.le_iff_toNat_le.mpr (by omega)), first]
  have fits := r.size_le
  constructor
  · rw [buffer]
  · intro i inside
    rw [buffer]
    simp only [PerfAuxBuffer.data, List.foldl_cons, List.foldl_nil, Copy.run, copyInto, first, second]
    by_cases behind : r.ringSize.toNat ≤ r.place.toNat + i
    · rw [r.mod_of_ge behind inside, if_pos (by omega), UInt64.toNat_zero]
      exact congrArg ring (by omega)
    · rw [r.mod_of_lt (by omega), if_neg (by omega), UInt64.toNat_zero, if_pos (by omega), Nat.sub_zero]
  · rw [buffer, List.forall_mem_cons, List.forall_mem_singleton]
    constructor
    · intro i inside
      rw [first] at inside
      dsimp only
      omega
    · intro i inside
      rw [second] at inside
      rw [UInt64.toNat_zero]
      omega
  · rw [buffer, List.forall_mem_cons, List.forall_mem_singleton]
    constructor
    · intro i inside
      rw [first] at inside
      rw [UInt64.toNat_zero]
      omega
    · intro i inside
      rw [second] at inside
      rw [first]
      omega

/-- The data of every record is taken out of the ring as it is. -/
theorem unrolled (ring allocated : Memory) : r.Unrolled ring allocated := by
  by_cases room : r.place + r.size < r.ringSize
  · exact r.unrolled_of_lt ring allocated room
  · exact r.unrolled_of_ge ring allocated room

end AuxRecord

end DevFuzz.Perf
