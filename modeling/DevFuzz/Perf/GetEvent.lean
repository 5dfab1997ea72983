import DevFuzz.Perf.CheckBuffer

/-! # Records of the ring

`get_event` of `proxy/pt-runner.cpp` finds a record of the regular ring.  A record that
ends before the end of the ring is used in place; any other one is copied to a scratch
buffer in two parts.

`data_tail` counts up for as long as the process runs, and `get_event` takes it as an
`int`.  From `2 ^ 31` on the remainder may be negative (`getEvent_right_iff`).
-/

namespace DevFuzz.Perf

/-- What a call reads of the ring and writes of its scratch, as runs of bytes by start and
    length, and the bytes of the record.  An index of the ring is an `int`. -/
structure Event where
  ringReads : List (Int × Nat)
  scratchWrites : List (Nat × Nat)
  byte : Nat → UInt8

/-- `get_event<T>(ring_data, regular_ring_data_size, data_tail)` with `sizeof(T) = size`. -/
def getEvent (ring : Int → UInt8) (size : Nat) (dataTail : UInt64) : Event :=
  let real := realTail dataTail.toNat
  -- `size` is a `size_t`, and so are the sum and the difference with it
  if (real + size) % 18446744073709551616 < ringDataSize then
    ⟨[(real, size)], [], fun j => ring (real + j)⟩
  else
    let size1 := (ringDataSize - real).toNat
    let size2 := ((size - size1 : Int) % 18446744073709551616).toNat
    ⟨[(real, size1), (0, size2)], [(0, size1), (size1, size2)],
      fun j => if j < size1 then ring (real + j) else ring (j - size1)⟩

/-- The size of a record type. -/
structure RecordSize where
  size : Nat
  size_pos : 1 ≤ size
  size_le : size ≤ 256

/-- The record is the one at `data_tail`, and the call keeps to the ring and its scratch. -/
structure Right (ring : Int → UInt8) (t : RecordSize) (dataTail : UInt64) : Prop where
  byte : ∀ j < t.size, (getEvent ring t.size dataTail).byte j = ring ((dataTail.toNat + j) % 16384 : Nat)
  ringReads : ∀ run ∈ (getEvent ring t.size dataTail).ringReads, ∀ i < run.2, 0 ≤ run.1 + i ∧ run.1 + i < ringDataSize
  scratchWrites : ∀ run ∈ (getEvent ring t.size dataTail).scratchWrites, ∀ i < run.2, run.1 + i < 256

/-! ## The index -/

theorem realTail_of_lt {dataTail : Nat} (low : dataTail % 4294967296 < 2147483648) :
    realTail dataTail = (dataTail % 16384 : Nat) := by
  have signed : (BitVec.ofNat 32 dataTail).toInt = (dataTail % 4294967296 : Nat) := by
    rw [BitVec.toInt_eq_toNat_cond, BitVec.toNat_ofNat]
    omega
  rw [realTail, signed, ringDataSize, Int.tmod_eq_emod_of_nonneg (Int.natCast_nonneg _)]
  omega

/-- The remainder has the sign of the counter. -/
theorem realTail_of_ge {dataTail : Nat} (high : 2147483648 ≤ dataTail % 4294967296) :
    realTail dataTail = -(((4294967296 - dataTail % 4294967296) % 16384 : Nat) : Int) := by
  have signed : (BitVec.ofNat 32 dataTail).toInt = -((4294967296 - dataTail % 4294967296 : Nat) : Int) := by
    rw [BitVec.toInt_eq_toNat_cond, BitVec.toNat_ofNat]
    omega
  rw [realTail, signed, ringDataSize, Int.neg_tmod, Int.tmod_eq_emod_of_nonneg (Int.natCast_nonneg _)]
  omega

/-- The index is right if it is not negative, which can have two reasons. -/
theorem realTail_nonneg_iff (dataTail : Nat) :
    0 ≤ realTail dataTail ↔ dataTail % 4294967296 < 2147483648 ∨ dataTail % 16384 = 0 := by
  by_cases low : dataTail % 4294967296 < 2147483648
  · rw [realTail_of_lt low]
    omega
  · rw [realTail_of_ge (Nat.not_lt.mp low)]
    omega

theorem realTail_of_nonneg {dataTail : Nat} (nonneg : 0 ≤ realTail dataTail) :
    realTail dataTail = (dataTail % 16384 : Nat) := by
  by_cases low : dataTail % 4294967296 < 2147483648
  · exact realTail_of_lt low
  · have high := Nat.not_lt.mp low
    rw [realTail_of_ge high] at nonneg ⊢
    omega

/-! ## The record -/

section

variable (ring : Int → UInt8) (t : RecordSize) (dataTail : UInt64)

variable {k : Nat} (index : realTail dataTail.toNat = k)

include index

theorem getEvent_inPlace (room : k + t.size < 16384) :
    getEvent ring t.size dataTail = ⟨[((k : Int), t.size)], [], fun j => ring (k + j)⟩ := by
  rw [getEvent, index, if_pos (by rw [ringDataSize]; omega)]

theorem getEvent_copied (bound : k < 16384) (cut : 16384 ≤ k + t.size) :
    getEvent ring t.size dataTail =
      ⟨[((k : Int), 16384 - k), (0, t.size - (16384 - k))], [(0, 16384 - k), (16384 - k, t.size - (16384 - k))],
        fun j => if j < 16384 - k then ring (k + j) else ring (j - (16384 - k : Nat))⟩ := by
  have short := t.size_le
  have first : (ringDataSize - (k : Int)).toNat = 16384 - k := by
    rw [ringDataSize]
    omega
  have second : (((t.size : Int) - (16384 - k : Nat)) % 18446744073709551616).toNat = t.size - (16384 - k) := by omega
  rw [getEvent, index, if_neg (by rw [ringDataSize]; omega)]
  simp only [first, second]

omit index

theorem right_of_nonneg (nonneg : 0 ≤ realTail dataTail.toNat) : Right ring t dataTail := by
  have index := realTail_of_nonneg nonneg
  have bound := Nat.mod_lt dataTail.toNat (show 0 < 16384 by decide)
  have short := t.size_le
  by_cases room : dataTail.toNat % 16384 + t.size < 16384
  · have event := getEvent_inPlace ring t dataTail index room
    constructor
    · intro j inside
      have wrapped : (dataTail.toNat + j) % 16384 = dataTail.toNat % 16384 + j := by omega
      rw [event, wrapped, Int.natCast_add]
    · rw [event, ringDataSize, List.forall_mem_singleton]
      dsimp only
      omega
    · rw [event]
      exact fun run member => absurd member List.not_mem_nil
  · -- the record goes on at the start of the ring, or ends with it
    have event := getEvent_copied ring t dataTail index bound (Nat.not_lt.mp room)
    constructor
    · intro j inside
      rw [event]
      dsimp only
      split_ifs with before
      · have wrapped : (dataTail.toNat + j) % 16384 = dataTail.toNat % 16384 + j := by omega
        rw [wrapped, Int.natCast_add]
      · have wrapped : (dataTail.toNat + j) % 16384 = j - (16384 - dataTail.toNat % 16384) := by omega
        rw [wrapped, Int.natCast_sub (Nat.not_lt.mp before)]
    · rw [event, ringDataSize, List.forall_mem_cons, List.forall_mem_singleton]
      dsimp only
      refine ⟨fun i inside => ?_, fun i inside => ?_⟩ <;> omega
    · rw [event, List.forall_mem_cons, List.forall_mem_singleton]
      dsimp only
      refine ⟨fun i inside => ?_, fun i inside => ?_⟩ <;> omega

theorem not_right_of_neg (negative : realTail dataTail.toNat < 0) : ¬ Right ring t dataTail := by
  intro right
  -- whichever way the record is taken, its first byte is read before the ring
  have first : ∃ run ∈ (getEvent ring t.size dataTail).ringReads, run.1 = realTail dataTail.toNat ∧ 0 < run.2 := by
    rw [getEvent]
    dsimp only
    split_ifs
    · exact ⟨_, List.mem_cons_self, rfl, t.size_pos⟩
    · refine ⟨_, List.mem_cons_self, rfl, ?_⟩
      rw [ringDataSize]
      omega
  obtain ⟨run, member, start, some⟩ := first
  have := (right.ringReads run member 0 some).1
  omega

/-- The record is read at the right place exactly as long as the counter, as an `int`, is not negative or
    stands at the start of the ring. -/
theorem getEvent_right_iff : Right ring t dataTail ↔
    dataTail.toNat % 4294967296 < 2147483648 ∨ dataTail.toNat % 16384 = 0 := by
  rw [← realTail_nonneg_iff]
  constructor
  · intro right
    by_contra negative
    exact not_right_of_neg ring t dataTail (Int.not_le.mp negative) right
  · exact right_of_nonneg ring t dataTail

end

/-- The header of a record, behind the first 2 GiB of records. -/
def headerSize : RecordSize := ⟨8, by decide, by decide⟩

theorem not_getEvent_right_overflow : ¬ Right (fun _ => 0) headerSize 0x80000008 := by
  intro right
  have inside := right.ringReads (-16376, 32760) (by decide) 0 (by decide)
  exact absurd inside.1 (by decide)

end DevFuzz.Perf
