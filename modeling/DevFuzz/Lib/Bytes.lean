import Mathlib.Data.Nat.Digits.Defs
import Mathlib.Data.Nat.Digits.Lemmas

/-! # Byte strings as numbers, and byte-addressed memory

`leValue` reads a byte string with the least significant byte first, `beValue`
with the most significant byte first.  The two readings agree exactly on
palindromes (`beValue_eq_leValue_iff`).

A memory is a total function from byte offsets; `loadLE` and `storeLE` are the
little-endian accesses of a machine word at an offset.
-/

namespace DevFuzz.Lib.Bytes

/-- A decidable property of bytes can be checked on all 256 bit vectors. -/
theorem forall_byte {P : UInt8 → Prop} (all : ∀ v : BitVec 8, P (UInt8.ofBitVec v)) (byte : UInt8) :
    P byte :=
  all byte.toBitVec

/-! ## Byte strings -/

def leValue (bytes : List UInt8) : Nat :=
  Nat.ofDigits 256 (bytes.map UInt8.toNat)

def beValue (bytes : List UInt8) : Nat :=
  bytes.foldl (fun value byte => value * 256 + byte.toNat) 0

@[simp] theorem leValue_nil : leValue [] = 0 := rfl

@[simp] theorem leValue_cons (byte : UInt8) (bytes : List UInt8) :
    leValue (byte :: bytes) = byte.toNat + 256 * leValue bytes := by
  simp [leValue, Nat.ofDigits_cons]

theorem leValue_append (left right : List UInt8) :
    leValue (left ++ right) = leValue left + 256 ^ left.length * leValue right := by
  simp [leValue, Nat.ofDigits_append]

/-- Byte strings of one length are determined by their value. -/
theorem leValue_inj {left right : List UInt8} (length : left.length = right.length)
    (equal : leValue left = leValue right) : left = right := by
  induction left generalizing right with
  | nil => exact (List.length_eq_zero_iff.mp length.symm).symm
  | cons byte left ih =>
    cases right with
    | nil => simp at length
    | cons byte' right =>
      simp only [leValue_cons] at equal
      have first := byte.toNat_lt
      have second := byte'.toNat_lt
      have bytesEqual : byte = byte' := UInt8.toNat_inj.mp (by omega)
      have restEqual : left = right := ih (by simpa using length) (by omega)
      rw [bytesEqual, restEqual]

theorem leValue_eq_zero_iff (bytes : List UInt8) : leValue bytes = 0 ↔ ∀ byte ∈ bytes, byte = 0 := by
  induction bytes with
  | nil => simp
  | cons byte bytes ih =>
    rw [leValue_cons, Nat.add_eq_zero_iff, List.forall_mem_cons, ← ih, ← UInt8.toNat_inj]
    simp

/-- The shift-and-add loop over a byte string reads it backwards. -/
theorem beValue_eq_leValue_reverse (bytes : List UInt8) :
    beValue bytes = leValue bytes.reverse := by
  -- the accumulator carries the bytes already read, in the high digits
  have loop : ∀ (rest : List UInt8) (value : Nat),
      rest.foldl (fun value byte => value * 256 + byte.toNat) value =
        leValue rest.reverse + 256 ^ rest.length * value := by
    intro rest
    induction rest with
    | nil => intro value; simp
    | cons byte rest ih =>
      intro value
      simp only [List.foldl_cons, ih, List.reverse_cons, leValue_append, List.length_reverse,
        List.length_cons, leValue_cons, leValue_nil, pow_succ]
      ring
  simpa [beValue] using loop bytes 0

theorem beValue_eq_leValue_iff (bytes : List UInt8) :
    beValue bytes = leValue bytes ↔ bytes.reverse = bytes := by
  rw [beValue_eq_leValue_reverse]
  constructor
  · intro equal
    exact leValue_inj (by simp) equal
  · intro palindrome
    rw [palindrome]

/-! ## Memory -/

abbrev Memory := Nat → UInt8

/-- The `index`-th byte of a little-endian word. -/
def byteOf (value index : Nat) : UInt8 := UInt8.ofNat (value / 256 ^ index)

/-- `*(uintN_t *)&memory[start] = value` for a word of `width` bytes. -/
def storeLE (memory : Memory) (start width value : Nat) : Memory := fun index =>
  if start ≤ index ∧ index < start + width then byteOf value (index - start) else memory index

/-- `memcpy(&memory[start], source, width)` -/
def copyInto (memory : Memory) (start width : Nat) (source : Memory) : Memory := fun index =>
  if start ≤ index ∧ index < start + width then source (index - start) else memory index

/-- The bytes `memory[start .. start + width)`. -/
def window (memory : Memory) (start width : Nat) : List UInt8 :=
  (List.range width).map fun index => memory (start + index)

/-- `*(uintN_t *)&memory[start]` for a word of `width` bytes. -/
def loadLE (memory : Memory) (start width : Nat) : Nat :=
  leValue (window memory start width)

theorem storeLE_of_lt (memory : Memory) {start width value index : Nat}
    (low : start ≤ index) (high : index < start + width) :
    storeLE memory start width value index = byteOf value (index - start) := by
  simp [storeLE, low, high]

theorem leValue_byteOf (value width : Nat) :
    leValue ((List.range width).map (byteOf value)) = value % 256 ^ width := by
  induction width generalizing value with
  | zero => simp [Nat.mod_one]
  | succ width ih =>
    have shift : ((List.range width).map fun index => byteOf value (index + 1)) =
        (List.range width).map (byteOf (value / 256)) := by
      apply List.map_congr_left
      intro index _
      simp [byteOf, pow_succ', Nat.div_div_eq_div_mul]
    simp only [List.range_succ_eq_map, List.map_cons, List.map_map, Function.comp_def,
      leValue_cons, shift, ih]
    simp [byteOf, pow_succ', Nat.mod_mul]

/-- A word whose bytes are those of a value from index `k` on. -/
theorem loadLE_of_bytes {memory : Memory} {start width value k : Nat}
    (bytes : ∀ index < width, memory (start + index) = byteOf value (k + index)) :
    loadLE memory start width = value / 256 ^ k % 256 ^ width := by
  rw [← leValue_byteOf (value / 256 ^ k) width, loadLE, window]
  congr 1
  apply List.map_congr_left
  intro index member
  rw [bytes index (List.mem_range.mp member), byteOf, byteOf, Nat.div_div_eq_div_mul, pow_add]

theorem byteOf_leValue {bytes : List UInt8} {index : Nat} (inside : index < bytes.length) :
    byteOf (leValue bytes) index = bytes[index] := by
  induction bytes generalizing index with
  | nil => simp at inside
  | cons byte bytes ih =>
    cases index with
    | zero => simp [byteOf, UInt8.ofNat_add, UInt8.ofNat_mul]
    | succ index =>
      have shift : byteOf (leValue (byte :: bytes)) (index + 1) = byteOf (leValue bytes) index := by
        have := byte.toNat_lt
        have rest : (byte.toNat + 256 * leValue bytes) / 256 = leValue bytes := by omega
        rw [leValue_cons, byteOf, byteOf, pow_succ', ← Nat.div_div_eq_div_mul, rest]
      rw [shift, List.getElem_cons_succ]
      exact ih (by simpa using inside)

theorem leValue_lt (bytes : List UInt8) : leValue bytes < 256 ^ bytes.length := by
  induction bytes with
  | nil => simp
  | cons byte bytes ih =>
    have := byte.toNat_lt
    rw [leValue_cons, List.length_cons, pow_succ']
    omega

theorem byteOf_loadLE (memory : Memory) (start : Nat) {width index : Nat} (inside : index < width) :
    byteOf (loadLE memory start width) index = memory (start + index) := by
  have length : (window memory start width).length = width := by simp [window]
  rw [loadLE, byteOf_leValue (by rwa [length])]
  simp [window]

theorem loadLE_lt (memory : Memory) (start width : Nat) : loadLE memory start width < 256 ^ width := by
  simpa [loadLE, window] using leValue_lt (window memory start width)

theorem loadLE_eq_zero_iff (memory : Memory) (start width : Nat) :
    loadLE memory start width = 0 ↔ ∀ i < width, memory (start + i) = 0 := by
  rw [loadLE, leValue_eq_zero_iff]
  simp [window]

theorem loadLE_storeLE (memory : Memory) (start width value : Nat) :
    loadLE (storeLE memory start width value) start width = value % 256 ^ width := by
  rw [← leValue_byteOf value width]
  unfold loadLE window
  congr 1
  apply List.map_congr_left
  intro index member
  have bound := List.mem_range.mp member
  rw [storeLE_of_lt memory (by omega) (by omega), Nat.add_sub_cancel_left]

end DevFuzz.Lib.Bytes
