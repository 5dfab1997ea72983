import DevFuzz.PT.Passes

/-! # Where the decoder reads

Every guard of the packet tests is strong enough, with one exception: the CYC
loop advances `p` after its `LEFT(1)` (`within_packetPass`).  The two diagnostic
messages print four bytes without any guard.  `inBounds_iff` puts the three
together.
-/

namespace DevFuzz.PT

open DevFuzz.Lib DevFuzz.Lib.Bytes

/-! ## Guarded alternatives -/

theorem within_deref {b : Buffer} {i : Nat} : Reading.Within b.len (b.deref i) ↔ i < b.len := by
  simp [Reading.Within, Buffer.deref]

theorem within_load {b : Buffer} {p n : Nat} (room : p + n ≤ b.len) :
    Reading.Within b.len (b.load p n) := by
  intro i member
  have := List.mem_range'_1.mp member
  omega

/-- Compared and payload bytes of an opcode stand before the end that its `LEFT` asks for. -/
theorem opcodes_guarded : ∀ opcode ∈ opcodes,
    (∀ entry ∈ opcode.compared, entry.1 < opcode.need) ∧ ∀ i ∈ opcode.payload, i < opcode.need := by
  decide

theorem within_try {b : Buffer} {p : Nat} {opcode : Opcode} (room : p + 2 ≤ b.len)
    (known : opcode ∈ opcodes) : Reading.Within b.len (opcode.try b p) := by
  obtain ⟨compared, payload⟩ := opcodes_guarded opcode known
  rw [Opcode.try, Reading.within_bind]
  refine ⟨within_deref.mpr (by omega), ?_⟩
  split_ifs with test
  -- the payload is read under the same `LEFT` as the compared bytes
  · have enough : p + opcode.need ≤ b.len := by
      simp only [Bool.and_eq_true, Buffer.left, decide_eq_true_eq] at test
      exact test.2
    rw [Reading.within_bind]
    constructor
    · intro i member
      obtain ⟨entry, entryMember, rfl⟩ := List.mem_map.mp member
      have := compared entry entryMember
      omega
    · split_ifs
      · intro i member
        obtain ⟨offset, offsetMember, rfl⟩ := List.mem_map.mp member
        have := payload offset offsetMember
        omega
      · exact Reading.within_pure _ _
  · exact Reading.within_pure _ _

theorem within_extendedPacket (b : Buffer) (p : Nat) (head : UInt8) :
    Reading.Within b.len (extendedPacket b p head) := by
  unfold extendedPacket
  split_ifs with entered
  · have room : p + 2 ≤ b.len := by
      simp only [Bool.and_eq_true, Buffer.left, decide_eq_true_eq] at entered
      exact entered.2
    rw [Reading.within_bind]
    refine ⟨Reading.within_firstOf ?_, Reading.within_pure _ _⟩
    intro x member
    obtain ⟨opcode, known, rfl⟩ := List.mem_map.mp member
    exact within_try room known
  · exact Reading.within_pure _ _

theorem within_mergeIp {b : Buffer} {p n i : Nat} (room : p + 2 * (i + n) ≤ b.len)
    (v : BitVec 64) : Reading.Within b.len (mergeIp b p n i v) := by
  induction n generalizing i v with
  | zero => exact Reading.within_pure _ _
  | succ n ih =>
    rw [mergeIp, Reading.within_bind]
    exact ⟨within_load (by omega), ih (by omega) _⟩

theorem within_getIpVal (b : Buffer) (p ipl : Nat) (lastIp : BitVec 64) :
    Reading.Within b.len (getIpVal b p ipl lastIp) := by
  unfold getIpVal
  split_ifs with none short room room
  · exact Reading.within_pure _ _
  · simp only [Buffer.left, decide_eq_true_eq] at room
    rw [Reading.within_bind]
    exact ⟨within_mergeIp (by omega) _, Reading.within_pure _ _⟩
  · exact Reading.within_pure _ _
  · simp only [Buffer.left, decide_eq_true_eq] at room
    rw [Reading.within_bind]
    exact ⟨within_load room, Reading.within_pure _ _⟩
  · exact Reading.within_pure _ _

theorem within_tipPacket (b : Buffer) (p : Nat) (head : UInt8) (lastIp : BitVec 64) :
    Reading.Within b.len (tipPacket b p head lastIp) := by
  unfold tipPacket
  split
  · rw [Reading.within_bind]
    exact ⟨within_getIpVal b _ _ _, Reading.within_pure _ _⟩
  · exact Reading.within_pure _ _

theorem within_modePacket (b : Buffer) (p : Nat) (head : UInt8) :
    Reading.Within b.len (modePacket b p head) := by
  unfold modePacket
  split_ifs with entered
  · simp only [Bool.and_eq_true, Buffer.left, decide_eq_true_eq] at entered
    rw [Reading.within_bind]
    refine ⟨within_deref.mpr (by omega), ?_⟩
    split_ifs <;> exact Reading.within_pure _ _
  · exact Reading.within_pure _ _

theorem within_tscPacket (b : Buffer) (p : Nat) (head : UInt8) :
    Reading.Within b.len (tscPacket b p head) := by
  unfold tscPacket
  split_ifs with entered
  · simp only [Bool.and_eq_true, Buffer.left, decide_eq_true_eq] at entered
    rw [Reading.within_bind]
    exact ⟨within_load (by omega), Reading.within_pure _ _⟩
  · exact Reading.within_pure _ _

/-! ## The CYC loop -/

/-- A CYC packet with its Exp bit set whose continuation bytes run up to the end of the buffer. -/
structure CutCyc (b : Buffer) (p : Nat) : Prop where
  head : b.map p &&& 7 = 7
  tail : ∀ i, p < i → i < b.len → b.map i &&& 1 ≠ 0

/-- The loop stays inside exactly when it finds its last byte there. -/
theorem within_cycTail {b : Buffer} {p n : Nat} (left : p + 1 + n = b.len) :
    Reading.Within b.len (cycTail b p n) ↔ ∃ i, p < i ∧ i < b.len ∧ b.map i &&& 1 = 0 := by
  induction n generalizing p with
  | zero =>
    -- every byte was odd: the loop reads the byte behind the last one
    have outside : ¬ Reading.Within b.len (cycTail b p 0) := by
      simp only [cycTail, Reading.within_bind, within_deref]
      omega
    refine iff_of_false outside ?_
    rintro ⟨i, low, high, -⟩
    omega
  | succ n ih =>
    have inside : p + 1 < b.len := by omega
    simp only [cycTail, Reading.within_bind, within_deref, inside, true_and, Buffer.deref_value]
    by_cases last : b.map (p + 1) &&& 1 = 0
    · simp only [last, ne_eq, not_true_eq_false, if_false]
      exact iff_of_true (Reading.within_pure _ _) ⟨p + 1, by omega, inside, last⟩
    · simp only [last, ne_eq, not_false_eq_true, if_true, ih (p := p + 1) (by omega)]
      constructor
      · rintro ⟨i, low, rest⟩
        exact ⟨i, by omega, rest⟩
      · rintro ⟨i, low, high, even⟩
        refine ⟨i, ?_, high, even⟩
        rcases Nat.lt_or_eq_of_le (Nat.succ_le_of_lt low) with later | rfl
        · exact later
        · exact absurd even last

theorem within_cycPacket {b : Buffer} {p : Nat} (inside : p < b.len) :
    Reading.Within b.len (cycPacket b p (b.map p)) ↔ ¬ CutCyc b p := by
  have exp : ∀ byte : UInt8, byte &&& 7 = 7 ↔ byte &&& 3 = 3 ∧ byte &&& 4 ≠ 0 :=
    forall_byte (by decide)
  have cut : CutCyc b p ↔ (b.map p &&& 3 = 3 ∧ b.map p &&& 4 ≠ 0) ∧
      ¬ ∃ i, p < i ∧ i < b.len ∧ b.map i &&& 1 = 0 := by
    constructor
    · rintro ⟨head, tail⟩
      exact ⟨(exp _).mp head, fun ⟨i, low, high, even⟩ => tail i low high even⟩
    · rintro ⟨head, none⟩
      exact ⟨(exp _).mpr head, fun i low high even => none ⟨i, low, high, even⟩⟩
  -- the guard of the loop holds wherever a pass starts, so it protects nothing
  have room : b.left p 1 = true := by
    simp only [Buffer.left, decide_eq_true_eq]
    omega
  rw [cut, cycPacket]
  by_cases cyc : b.map p &&& 3 = 3
  · by_cases more : b.map p &&& 4 ≠ 0
    · have left : p + 1 + (b.len - (p + 1)) = b.len := by omega
      simp [cyc, more, room, Reading.within_bind, within_cycTail left, Reading.within_pure]
    · simp [cyc, more, Reading.within_pure]
  · simp [cyc, Reading.within_pure]

/-- A pass reads outside the buffer exactly when it starts at a cut CYC packet. -/
theorem within_packetPass {b : Buffer} {p : Nat} (inside : p < b.len) (lastIp : BitVec 64) :
    Reading.Within b.len (packetPass b p lastIp) ↔ ¬ CutCyc b p := by
  rw [packetPass, Reading.within_bind, Reading.within_bind]
  constructor
  · rintro ⟨-, all, -⟩ cut
    -- the other alternatives find nothing at a CYC header, so the CYC one is tried
    have head : ∀ byte : UInt8, byte &&& 7 = 7 → byte &&& 3 = 3 := forall_byte (by decide)
    have cyc : Reading.Within b.len (cycPacket b p (b.map p)) :=
      Reading.within_of_within_firstOf (alternatives_of_cyc (head _ cut.head) lastIp) all
    exact (within_cycPacket inside).mp cyc cut
  · intro whole
    refine ⟨within_deref.mpr inside, Reading.within_firstOf ?_, Reading.within_pure _ _⟩
    simp only [List.forall_mem_cons, List.not_mem_nil, false_imp_iff, implies_true, and_true,
      Buffer.deref_value]
    refine ⟨within_extendedPacket b p _, ?_, within_tipPacket b p _ _, within_modePacket b p _,
      within_tscPacket b p _, ?_, (within_cycPacket inside).mpr whole⟩
    · unfold evenPacket
      split_ifs <;> exact Reading.within_pure _ _
    · unfold mtcPacket
      split_ifs <;> exact Reading.within_pure _ _

/-! ## The whole decode -/

/-- No byte outside the buffer has been read. -/
def InBounds (b : Buffer) (s : State) : Prop := ∀ i ∈ s.derefs, i < b.len

/-- The next step of the decode reads inside the buffer. -/
def SafeAt (b : Buffer) (s : State) : Prop :=
  match s.phase with
  | .sync => s.p < b.len → (memmem b s.p).value = none → s.totalPsbs = 0 → 4 ≤ b.len
  | .packet => s.p < b.len → ¬ CutCyc b s.p ∧
      ((packetPass b s.p s.lastIp).value = .unknown → s.totalTips = 0 → s.totalPsbs ≤ 3 →
        s.p + 4 ≤ b.len)
  | .done => True

theorem within_memmem (b : Buffer) (p : Nat) : Reading.Within b.len (memmem b p) := by
  intro i member
  have := List.mem_range'_1.mp member
  omega

theorem inBounds_step_iff (b : Buffer) (s : State) :
    InBounds b (step b s) ↔ InBounds b s ∧ SafeAt b s := by
  by_cases halted : s.phase = .done
  · simp [step_of_done b s halted, SafeAt, halted]
  have transition := transition_step b halted
  generalize step b s = t at transition
  cases transition with
  | ended phase outside => simp [InBounds, SafeAt, phase, Nat.not_lt.mpr outside]
  | synced phase inside found =>
    have searched : ∀ i ∈ (memmem b s.p).derefs, i < b.len := within_memmem b s.p
    simp only [InBounds, SafeAt, phase, inside, found, List.forall_mem_append]
    simpa using fun _ => searched
  | lost phase inside missing =>
    have searched : ∀ i ∈ (memmem b s.p).derefs, i < b.len := within_memmem b s.p
    have message : (∀ i ∈ if s.totalPsbs = 0 then [0, 1, 2, 3] else [], i < b.len) ↔
        (s.totalPsbs = 0 → 4 ≤ b.len) := by
      split_ifs with first
      · simp only [List.forall_mem_cons, first]
        simp
        omega
      · simp [first]
    simp only [InBounds, SafeAt, phase, inside, missing, List.forall_mem_append, message]
    simpa using fun _ _ => searched
  | exhausted phase outside => simp [InBounds, SafeAt, phase, Nat.not_lt.mpr outside]
  | next phase inside pass | tip phase inside pass =>
    have read := within_packetPass inside s.lastIp
    simp only [InBounds, SafeAt, phase, inside, pass, List.forall_mem_append]
    rw [← read]
    simp [Reading.Within]
  | unknown phase inside pass =>
    have read := within_packetPass inside s.lastIp
    have message : (∀ i ∈ if s.totalTips = 0 ∧ s.totalPsbs ≤ 3 then [s.p, s.p + 1, s.p + 2, s.p + 3]
        else [], i < b.len) ↔ (s.totalTips = 0 → s.totalPsbs ≤ 3 → s.p + 4 ≤ b.len) := by
      split_ifs with first
      · simp only [List.forall_mem_cons, first]
        simp
        omega
      · simp only [not_and] at first
        simp
        tauto
    simp only [InBounds, SafeAt, phase, inside, pass, List.forall_mem_append, message]
    rw [← read]
    simp [Reading.Within, and_assoc]

theorem inBounds_iff_safeAt (b : Buffer) (d : Decoder) :
    InBounds b (decode b d) ↔ ∀ s, Reaches (step b) (State.init d) s → SafeAt b s :=
  accumulated_iff (step_of_done b) (inBounds_step_iff b) (by simp [InBounds, State.init])
    (reaches_decode b d) (decode_done b d)

theorem totalPsbs_step (b : Buffer) (s : State) : s.totalPsbs ≤ (step b s).totalPsbs := by
  by_cases halted : s.phase = .done
  · rw [step_of_done b s halted]
  have transition := transition_step b halted
  generalize step b s = t at transition
  cases transition <;> simp

/-- The decoder starts a packet at `s.p`. -/
def StartsPacket (b : Buffer) (d : Decoder) (s : State) : Prop :=
  Reaches (step b) (State.init d) s ∧ s.phase = .packet ∧ s.p < b.len

/-- The decode stays inside the buffer exactly when the buffer has the four bytes of the
    message for a missing PSB, no packet is a cut CYC, and no unknown packet that is reported
    starts in the last three bytes. -/
theorem inBounds_iff (b : Buffer) (d : Decoder) :
    InBounds b (decode b d) ↔
      (0 < b.len → d.totalPsbs = 0 → 4 ≤ b.len) ∧
      ∀ s, StartsPacket b d s → ¬ CutCyc b s.p ∧
        ((packetPass b s.p s.lastIp).value = .unknown → s.totalTips = 0 → s.totalPsbs ≤ 3 →
          s.p + 4 ≤ b.len) := by
  rw [inBounds_iff_safeAt]
  constructor
  · intro safe
    refine ⟨?_, ?_⟩
    · intro nonempty first
      by_contra short
      -- a PSB takes 16 bytes
      have missing : (memmem b 0).value = none := by
        cases found : (memmem b 0).value with
        | none => rfl
        | some q =>
          have room := (psbAt_iff.mp (memmem_some found).2.2).1
          omega
      exact short (safe _ (.refl _) nonempty missing first)
    · rintro s ⟨reached, phase, inside⟩
      have here := safe s reached
      simp only [SafeAt, phase] at here
      exact here inside
  · rintro ⟨short, packets⟩ s reached
    -- when no PSB has been counted now, none had been counted before the decode either
    have counted : d.totalPsbs ≤ s.totalPsbs :=
      reached.invariant (P := fun t => d.totalPsbs ≤ t.totalPsbs)
        (fun t bound => le_trans bound (totalPsbs_step b t)) (le_refl d.totalPsbs)
    unfold SafeAt
    split
    · intro inside _ first
      exact short (by omega) (by omega)
    · rename_i phase
      intro inside
      exact packets s ⟨reached, phase, inside⟩
    · trivial

/-- A one-byte buffer, a CYC packet cut after its first byte, and an unknown last byte. -/
theorem decode_not_inBounds :
    ¬ InBounds (.ofList [0]) (decode (.ofList [0]) {}) ∧
      ¬ InBounds (.ofList (psb ++ [0x07])) (decode (.ofList (psb ++ [0x07])) {}) ∧
      ¬ InBounds (.ofList (psb ++ [0x05])) (decode (.ofList (psb ++ [0x05])) {}) := by
  unfold InBounds
  refine ⟨?_, ?_, ?_⟩ <;> decide +kernel

end DevFuzz.PT
