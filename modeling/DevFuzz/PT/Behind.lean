import DevFuzz.PT.Parts

/-! # The memory behind the buffer

The decoder reads behind its buffer in places (`inBounds_iff`).  What it does there has
no influence on what it reports: two buffers with the same bytes are decoded alike,
whatever lies behind them (`decode_congr`).
-/

namespace DevFuzz.PT

open DevFuzz.Lib DevFuzz.Lib.Bytes

/-- Two buffers with the same bytes. -/
structure Buffer.Agree (b b' : Buffer) : Prop where
  len : b.len = b'.len
  map : ∀ i < b.len, b.map i = b'.map i

section

variable {b b' : Buffer} (agree : b.Agree b')

include agree

theorem Buffer.Agree.segment : Buffer.Segment 0 b b' := by
  refine ⟨by rw [Nat.zero_add, agree.len], fun i inside => ?_⟩
  rw [Nat.zero_add]
  exact agree.map i (agree.len ▸ inside)

/-- A part that ends where the buffer ends cuts no packet. -/
theorem Buffer.Agree.packetPass {p : Nat} (inside : p < b.len) (lastIp : BitVec 64) :
    packetPass b p lastIp = PT.packetPass b' p lastIp := by
  have cases := agree.segment.packetPass_or_cut (agree.len ▸ inside) lastIp
  simp only [Nat.zero_add, Pass.Cut] at cases
  cases cases with
  | inl moved => exact moved.eq_of_zero agree.len Pass.shift_zero
  | inr cut => exact absurd agree.len cut.1.ne'

theorem Buffer.Agree.psbAt (p : Nat) : psbAt b p = PT.psbAt b' p := by
  have same := agree.segment.psbAt_eq (by rw [Nat.zero_add, agree.len]) p
  rwa [Nat.zero_add] at same

theorem Buffer.Agree.step (s : State) : step b s = PT.step b' s := by
  cases phase : s.phase with
  | done => rw [step_of_done b s phase, step_of_done b' s phase]
  | sync =>
    have found : memmem b s.p = memmem b' s.p := by
      rw [memmem, memmem, ← agree.len, funext agree.psbAt]
    simp only [PT.step, phase, stepSync, found, agree.len]
  | packet =>
    by_cases inside : s.p < b.len
    · simp only [PT.step, phase, stepPacket, agree.packetPass inside, agree.len]
    · have inside' : ¬ s.p < b'.len := agree.len ▸ inside
      simp only [PT.step, phase, stepPacket, if_neg inside, if_neg inside']

end

/-- Buffers with the same bytes are decoded alike: the same packets, IPs and even the same indices are read. -/
theorem decode_congr {b b' : Buffer} (agree : b.Agree b') (d : Decoder) : decode b d = decode b' d := by
  rw [decode, decode, agree.len, funext agree.step]

/-- A PSB and a CYC packet that does not end, with a byte behind it. -/
def unendedCyc (byte : UInt8) : Buffer := ⟨fun i => (psb ++ [0x07]).getD i byte, 17⟩

theorem unendedCyc_agree : (unendedCyc 0).Agree (unendedCyc 0xff) := ⟨rfl, by decide⟩

/-- The byte behind the buffer is read, and makes no difference. -/
theorem decode_congr_unendedCyc :
    17 ∈ (decode (unendedCyc 0) {}).derefs ∧ decode (unendedCyc 0) {} = decode (unendedCyc 0xff) {} := by
  constructor
  · decide +kernel
  · exact decode_congr unendedCyc_agree {}

end DevFuzz.PT
