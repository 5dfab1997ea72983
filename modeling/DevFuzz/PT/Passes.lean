import DevFuzz.PT.Decoder
import DevFuzz.Lib.Machine

/-! # What one pass of the decoder can do

Every pass of the inner loop that does not leave it moves `p` forward
(`packetPass_next`, `packetPass_tip`), the pass at a PSB moves it by 16
(`packetPass_psb`), and so the whole decode ends (`decode_done`).
-/

namespace DevFuzz.PT

open DevFuzz.Lib DevFuzz.Lib.Bytes

/-! ## The alternatives of a pass -/

theorem packetPass_value (b : Buffer) (p : Nat) (lastIp : BitVec 64) :
    (packetPass b p lastIp).value =
      (([ extendedPacket b p (b.map p), evenPacket p (b.map p), tipPacket b p (b.map p) lastIp,
          modePacket b p (b.map p), tscPacket b p (b.map p), mtcPacket b p (b.map p),
          cycPacket b p (b.map p) ].findSome? Reading.value).getD .unknown) := by
  simp [packetPass, Reading.value_firstOf]

/-- What every alternative of a pass can yield, a pass can yield or it leaves the loop. -/
theorem packetPass_cases {P : Pass → Prop} {b : Buffer} {p : Nat} {lastIp : BitVec 64}
    (unknown : P .unknown)
    (extended : ∀ pass, (extendedPacket b p (b.map p)).value = some pass → P pass)
    (even : ∀ pass, (evenPacket p (b.map p)).value = some pass → P pass)
    (tip : ∀ pass, (tipPacket b p (b.map p) lastIp).value = some pass → P pass)
    (mode : ∀ pass, (modePacket b p (b.map p)).value = some pass → P pass)
    (tsc : ∀ pass, (tscPacket b p (b.map p)).value = some pass → P pass)
    (mtc : ∀ pass, (mtcPacket b p (b.map p)).value = some pass → P pass)
    (cyc : ∀ pass, (cycPacket b p (b.map p)).value = some pass → P pass) :
    P (packetPass b p lastIp).value := by
  rw [packetPass_value]
  cases found : List.findSome? Reading.value _ with
  | none => exact unknown
  | some pass =>
    -- the first alternative that has a value decides the pass
    obtain ⟨x, member, value⟩ := List.exists_of_findSome?_eq_some found
    simp only [List.mem_cons, List.not_mem_nil, or_false] at member
    rcases member with rfl | rfl | rfl | rfl | rfl | rfl | rfl
    · exact extended pass value
    · exact even pass value
    · exact tip pass value
    · exact mode pass value
    · exact tsc pass value
    · exact mtc pass value
    · exact cyc pass value

/-! ## Moving forward -/

/-- The pass leaves `p` behind, or leaves the loop. -/
def Pass.Forward (p : Nat) : Pass → Prop
  | .next p' => p < p'
  | .tip p' _ => p < p'
  | .unknown => True

theorem Opcode.try_some {b : Buffer} {p p' : Nat} {opcode : Opcode}
    (taken : (opcode.try b p).value = some p') :
    p' = p + opcode.advance ∧ b.map (p + 1) = opcode.code ∧ p + opcode.need ≤ b.len := by
  simp only [Opcode.try, Reading.value_bind, Buffer.deref] at taken
  split at taken
  · rename_i test
    simp only [Bool.and_eq_true, beq_iff_eq, Buffer.left, decide_eq_true_eq] at test
    simp only [Reading.value_bind] at taken
    split at taken
    · exact ⟨(Option.some.inj taken).symm, test⟩
    · cases taken
  · cases taken

theorem extendedPacket_inv {b : Buffer} {p : Nat} {head : UInt8} {pass : Pass}
    (found : (extendedPacket b p head).value = some pass) :
    head = 2 ∧ p + 2 ≤ b.len ∧ ∃ opcode ∈ opcodes, (opcode.try b p).value = some (p + opcode.advance) ∧
      pass = .next (p + opcode.advance) := by
  unfold extendedPacket at found
  split at found
  · rename_i entered
    simp only [Bool.and_eq_true, beq_iff_eq, Buffer.left, decide_eq_true_eq] at entered
    simp only [Reading.value_bind, Reading.value_pure, Reading.value_firstOf, Option.map_eq_some_iff]
      at found
    obtain ⟨p', first, rfl⟩ := found
    obtain ⟨x, member, value⟩ := List.exists_of_findSome?_eq_some first
    obtain ⟨opcode, known, rfl⟩ := List.mem_map.mp member
    obtain ⟨rfl, -⟩ := Opcode.try_some value
    exact ⟨entered.1, entered.2, opcode, known, value, rfl⟩
  · cases found

theorem extendedPacket_some {b : Buffer} {p : Nat} {head : UInt8} {pass : Pass}
    (found : (extendedPacket b p head).value = some pass) :
    ∃ opcode ∈ opcodes, pass = .next (p + opcode.advance) ∧ p + opcode.need ≤ b.len := by
  obtain ⟨-, -, opcode, known, taken, rfl⟩ := extendedPacket_inv found
  exact ⟨opcode, known, rfl, (Opcode.try_some taken).2.2⟩

theorem getIpVal_forward (b : Buffer) (p ipl : Nat) (lastIp : BitVec 64) :
    p ≤ (getIpVal b p ipl lastIp).value.1 := by
  unfold getIpVal
  split_ifs <;> simp

theorem cycTail_forward (b : Buffer) (p n : Nat) : p < (cycTail b p n).value := by
  induction n generalizing p with
  | zero => simp [cycTail]
  | succ n ih =>
    simp only [cycTail, Reading.value_bind]
    split
    · exact Nat.lt_of_succ_lt (ih (p + 1))
    · simp

section

variable {b : Buffer} {p : Nat} {head : UInt8} {pass : Pass}

theorem evenPacket_some (found : (evenPacket p head).value = some pass) : pass = .next (p + 1) := by
  rw [evenPacket] at found
  split_ifs at found
  exact (Option.some.inj found).symm

theorem tipPacket_some {lastIp : BitVec 64} (found : (tipPacket b p head lastIp).value = some pass) :
    ∃ p' ip, p < p' ∧ pass = .tip p' ip := by
  rw [tipPacket] at found
  split at found
  · obtain rfl := Option.some.inj found
    exact ⟨_, _, getIpVal_forward b (p + 1) _ lastIp, rfl⟩
  · cases found

theorem modePacket_some (found : (modePacket b p head).value = some pass) :
    head = 0x99 ∧ p + 2 ≤ b.len ∧ pass = .next (p + 2) := by
  rw [modePacket] at found
  split_ifs at found with taken
  rw [Bool.and_eq_true, beq_iff_eq] at taken
  refine ⟨taken.1, of_decide_eq_true taken.2, ?_⟩
  rw [Reading.value_bind] at found
  split_ifs at found
  · exact (Option.some.inj found).symm
  · exact (Option.some.inj found).symm

theorem tscPacket_some (found : (tscPacket b p head).value = some pass) :
    head = 0x19 ∧ p + 8 ≤ b.len ∧ pass = .next (p + 8) := by
  rw [tscPacket] at found
  split_ifs at found with taken
  rw [Bool.and_eq_true, beq_iff_eq] at taken
  exact ⟨taken.1, of_decide_eq_true taken.2, (Option.some.inj found).symm⟩

theorem mtcPacket_some (found : (mtcPacket b p head).value = some pass) :
    head = 0x59 ∧ p + 2 ≤ b.len ∧ pass = .next (p + 2) := by
  rw [mtcPacket] at found
  split_ifs at found with taken
  rw [Bool.and_eq_true, beq_iff_eq] at taken
  exact ⟨taken.1, of_decide_eq_true taken.2, (Option.some.inj found).symm⟩

theorem cycPacket_some (found : (cycPacket b p head).value = some pass) : ∃ p', p < p' ∧ pass = .next p' := by
  rw [cycPacket] at found
  split_ifs at found
  · exact ⟨_, cycTail_forward b p _, (Option.some.inj found).symm⟩
  · exact ⟨p + 1, Nat.lt_succ_self p, (Option.some.inj found).symm⟩

end

theorem packetPass_forward (b : Buffer) (p : Nat) (lastIp : BitVec 64) :
    (packetPass b p lastIp).value.Forward p := by
  apply packetPass_cases
  case unknown => trivial
  case extended =>
    intro pass found
    obtain ⟨opcode, known, rfl, -⟩ := extendedPacket_some found
    -- no entry of the table stays where it is
    have moves : ∀ opcode ∈ opcodes, 0 < opcode.advance := by decide
    have := moves opcode known
    simp only [Pass.Forward]
    omega
  case even =>
    intro pass found
    obtain rfl := evenPacket_some found
    simp [Pass.Forward]
  case tip =>
    intro pass found
    obtain ⟨p', ip, forward, rfl⟩ := tipPacket_some found
    exact forward
  case mode =>
    intro pass found
    obtain ⟨-, -, rfl⟩ := modePacket_some found
    simp [Pass.Forward]
  case tsc =>
    intro pass found
    obtain ⟨-, -, rfl⟩ := tscPacket_some found
    simp [Pass.Forward]
  case mtc =>
    intro pass found
    obtain ⟨-, -, rfl⟩ := mtcPacket_some found
    simp [Pass.Forward]
  case cyc =>
    intro pass found
    obtain ⟨p', forward, rfl⟩ := cycPacket_some found
    exact forward

/-! ## The opcode table -/

theorem Opcode.try_of_ne {b : Buffer} {p : Nat} {opcode : Opcode}
    (other : b.map (p + 1) ≠ opcode.code) : (opcode.try b p).value = none := by
  simp [Opcode.try, other]

theorem Opcode.try_value {b : Buffer} {p : Nat} {opcode : Opcode}
    (code : b.map (p + 1) = opcode.code) :
    (opcode.try b p).value =
      if b.left p opcode.need && (b.compare p opcode.compared).value then some (p + opcode.advance)
      else none := by
  simp only [Opcode.try, Reading.value_bind, Buffer.deref_value, code, BEq.rfl, Bool.true_and]
  split_ifs <;> simp_all

/-- The codes are distinct, so at most one test of the table can succeed. -/
theorem findSome?_opcodes {b : Buffer} {p : Nat} {table : List Opcode} {opcode : Opcode}
    (distinct : (table.map Opcode.code).Nodup) (known : opcode ∈ table)
    (code : b.map (p + 1) = opcode.code) :
    (table.map (Opcode.try b p)).findSome? Reading.value = (opcode.try b p).value := by
  induction table with
  | nil => cases known
  | cons head table ih =>
    rw [List.map_cons, List.nodup_cons] at distinct
    have absent : ∀ other ∈ table, b.map (p + 1) = head.code → b.map (p + 1) ≠ other.code := by
      intro other member same equal
      exact distinct.1 (List.mem_map.mpr ⟨other, member, by rw [← equal, same]⟩)
    rcases List.mem_cons.mp known with rfl | later
    -- the tests behind the one that applies find nothing, nor do those in front of it
    · have none : (table.map (Opcode.try b p)).findSome? Reading.value = none := by
        simp only [List.findSome?_eq_none_iff, List.mem_map]
        rintro x ⟨other, member, rfl⟩
        exact Opcode.try_of_ne (absent other member code)
      rw [List.map_cons, List.findSome?_cons, none]
      cases (opcode.try b p).value <;> rfl
    · have skipped : (head.try b p).value = none := by
        apply Opcode.try_of_ne
        intro same
        exact absent opcode later same code
      rw [List.map_cons, List.findSome?_cons, skipped]
      exact ih distinct.2 later

theorem extendedPacket_value {b : Buffer} {p : Nat} {opcode : Opcode} (known : opcode ∈ opcodes)
    (room : p + 2 ≤ b.len) (code : b.map (p + 1) = opcode.code) :
    (extendedPacket b p 2).value =
      if b.left p opcode.need && (b.compare p opcode.compared).value then
        some (.next (p + opcode.advance))
      else none := by
  have entered : ((2 : UInt8) == 2 && b.left p 2) = true := by simp [Buffer.left, room]
  rw [extendedPacket, if_pos entered]
  simp only [Reading.value_bind, Reading.value_pure, Reading.value_firstOf,
    findSome?_opcodes (by decide) known code, Opcode.try_value code]
  split_ifs <;> rfl

theorem packetPass_of_extended {b : Buffer} {p : Nat} {pass : Pass}
    (found : (extendedPacket b p (b.map p)).value = some pass) (lastIp : BitVec 64) :
    (packetPass b p lastIp).value = pass := by
  rw [packetPass_value, List.findSome?_cons, found]
  rfl

theorem psbAt_iff {b : Buffer} {p : Nat} :
    psbAt b p = true ↔ p + 16 ≤ b.len ∧ ∀ i < 16, b.map (p + i) = psb.getD i 0 := by
  simp only [psbAt, Buffer.left, Buffer.compare, Bool.and_eq_true, decide_eq_true_eq, List.all_eq_true]
  refine and_congr_right fun _ => ?_
  constructor
  · intro all i bound
    have member : (i, psb.getD i 0) ∈ (List.range 16).zip psb := by
      interval_cases i <;> decide
    simpa using all _ member
  · rintro all ⟨i, byte⟩ member
    have entry : ∀ entry ∈ (List.range 16).zip psb, entry.1 < 16 ∧ entry.2 = psb.getD entry.1 0 := by
      decide
    obtain ⟨bound, equal⟩ := entry _ member
    simp only at bound equal
    rw [equal, all i bound, BEq.rfl]

/-- The pass at a PSB moves past it. -/
theorem packetPass_psb {b : Buffer} {p : Nat} (here : psbAt b p = true) (lastIp : BitVec 64) :
    (packetPass b p lastIp).value = .next (p + 16) := by
  have matched := here
  obtain ⟨room, bytes⟩ := psbAt_iff.mp here
  have first : b.map p = 2 := bytes 0 (by decide)
  have second : b.map (p + 1) = 0x82 := bytes 1 (by decide)
  apply packetPass_of_extended
  rw [first, extendedPacket_value (show ⟨0x82, 16, (List.range 16).zip psb, [], 16⟩ ∈ opcodes by
    simp [opcodes]) (by omega) second]
  exact if_pos matched

/-! ## Packets of other shapes -/

/-- No test before the CYC test accepts the head of a CYC packet. -/
theorem alternatives_of_cyc {b : Buffer} {p : Nat} (cyc : b.map p &&& 3 = 3) (lastIp : BitVec 64) :
    ∀ x ∈ [ extendedPacket b p (b.map p), evenPacket p (b.map p), tipPacket b p (b.map p) lastIp,
      modePacket b p (b.map p), tscPacket b p (b.map p), mtcPacket b p (b.map p) ],
      x.value = none := by
  have other : ∀ byte : UInt8, byte &&& 3 = 3 →
      byte ≠ 2 ∧ byte &&& 1 ≠ 0 ∧ tipKind? byte = none ∧ byte ≠ 0x99 ∧ byte ≠ 0x19 ∧ byte ≠ 0x59 :=
    forall_byte (by decide)
  obtain ⟨two, odd, tip, mode, tsc, mtc⟩ := other _ cyc
  simp [extendedPacket, evenPacket, tipPacket, modePacket, tscPacket, mtcPacket, two, odd, tip, mode,
    tsc, mtc]

theorem packetPass_of_cyc {b : Buffer} {p p' : Nat} (cyc : b.map p &&& 3 = 3)
    (found : (cycPacket b p (b.map p)).value = some (.next p')) (lastIp : BitVec 64) :
    (packetPass b p lastIp).value = .next p' := by
  have failed := alternatives_of_cyc cyc lastIp
  simp only [List.forall_mem_cons, List.not_mem_nil, false_imp_iff, implies_true, and_true] at failed
  rw [packetPass_value]
  simp [List.findSome?, failed, found]

/-- An even byte that no opcode test takes is a packet of its own. -/
theorem packetPass_of_even {b : Buffer} {p : Nat} (even : b.map p &&& 1 = 0)
    (other : (extendedPacket b p (b.map p)).value = none) (lastIp : BitVec 64) :
    (packetPass b p lastIp).value = .next (p + 1) := by
  rw [packetPass_value]
  simp [List.findSome?, other, evenPacket, even]

/-- A byte that is a packet whatever follows it: PAD, a short TNT, or a CYC without Exp. -/
def OneByte (byte : UInt8) : Prop := (byte &&& 1 = 0 ∧ byte ≠ 2) ∨ byte &&& 7 = 3

instance (byte : UInt8) : Decidable (OneByte byte) := inferInstanceAs (Decidable (_ ∨ _))

theorem packetPass_of_oneByte {b : Buffer} {p : Nat} (one : OneByte (b.map p))
    (lastIp : BitVec 64) : (packetPass b p lastIp).value = .next (p + 1) := by
  rcases one with ⟨even, notExt⟩ | cyc
  · exact packetPass_of_even even (by simp [extendedPacket, notExt]) lastIp
  · have bits : ∀ byte : UInt8, byte &&& 7 = 3 → byte &&& 3 = 3 ∧ byte &&& 4 = 0 :=
      forall_byte (by decide)
    obtain ⟨low, exp⟩ := bits _ cyc
    exact packetPass_of_cyc low (by simp [cycPacket, low, exp]) lastIp

/-! ## Reaching the end -/

theorem memmem_some {b : Buffer} {p q : Nat} (found : (memmem b p).value = some q) :
    p ≤ q ∧ q < b.len ∧ psbAt b q = true := by
  have member := List.mem_of_find?_eq_some found
  have here := List.find?_some found
  rw [List.mem_range'_1] at member
  exact ⟨member.1, by omega, here⟩

/-- What a step of a running decode does. -/
inductive Transition (b : Buffer) (s : State) : State → Prop where
  | ended (phase : s.phase = .sync) (outside : b.len ≤ s.p) : Transition b s { s with phase := .done }
  | synced (phase : s.phase = .sync) (inside : s.p < b.len) {q : Nat}
      (found : (memmem b s.p).value = some q) :
      Transition b s
        { s with
          phase := .packet, p := q, totalPsbs := s.totalPsbs + 1
          derefs := s.derefs ++ (memmem b s.p).derefs }
  | lost (phase : s.phase = .sync) (inside : s.p < b.len)
      (missing : (memmem b s.p).value = none) :
      Transition b s
        { s with
          phase := .done, p := b.len
          -- the message prints the first four bytes
          derefs := s.derefs ++ (memmem b s.p).derefs ++
            if s.totalPsbs = 0 then [0, 1, 2, 3] else [] }
  | exhausted (phase : s.phase = .packet) (outside : b.len ≤ s.p) :
      Transition b s { s with phase := .sync }
  | next (phase : s.phase = .packet) (inside : s.p < b.len) {p : Nat}
      (pass : (packetPass b s.p s.lastIp).value = .next p) :
      Transition b s { s with p := p, derefs := s.derefs ++ (packetPass b s.p s.lastIp).derefs }
  | tip (phase : s.phase = .packet) (inside : s.p < b.len) {p : Nat} {ip : BitVec 64}
      (pass : (packetPass b s.p s.lastIp).value = .tip p ip) :
      Transition b s
        { s with
          p := p, lastIp := ip, totalTips := s.totalTips + 1
          derefs := s.derefs ++ (packetPass b s.p s.lastIp).derefs
          logged := s.logged ++ [(s.p, ip)] }
  | unknown (phase : s.phase = .packet) (inside : s.p < b.len)
      (pass : (packetPass b s.p s.lastIp).value = .unknown) :
      Transition b s
        { s with
          phase := .sync
          -- the message prints the four bytes at `p`
          derefs := s.derefs ++ (packetPass b s.p s.lastIp).derefs ++
            if s.totalTips = 0 ∧ s.totalPsbs ≤ 3 then [s.p, s.p + 1, s.p + 2, s.p + 3] else [] }

theorem step_of_done (b : Buffer) (s : State) (halted : s.phase = .done) : step b s = s := by
  simp [step, halted]

theorem Transition.eq_step {b : Buffer} {s t : State} (transition : Transition b s t) :
    step b s = t := by
  cases transition with
  | ended phase outside => simp [step, phase, stepSync, Nat.not_lt.mpr outside]
  | synced phase inside found => simp [step, phase, stepSync, inside, found]
  | lost phase inside missing => simp [step, phase, stepSync, inside, missing]
  | exhausted phase outside => simp [step, phase, stepPacket, Nat.not_lt.mpr outside]
  | next phase inside pass => simp [step, phase, stepPacket, inside, pass]
  | tip phase inside pass => simp [step, phase, stepPacket, inside, pass]
  | unknown phase inside pass => simp [step, phase, stepPacket, inside, pass]

theorem transition_step (b : Buffer) {s : State} (running : s.phase ≠ .done) :
    Transition b s (step b s) := by
  have exists_transition : ∃ t, Transition b s t := by
    cases phase : s.phase with
    | done => exact absurd phase running
    | sync =>
      rcases Nat.lt_or_ge s.p b.len with inside | outside
      · cases found : (memmem b s.p).value with
        | none => exact ⟨_, .lost phase inside found⟩
        | some q => exact ⟨_, .synced phase inside found⟩
      · exact ⟨_, .ended phase outside⟩
    | packet =>
      rcases Nat.lt_or_ge s.p b.len with inside | outside
      · cases pass : (packetPass b s.p s.lastIp).value with
        | next p => exact ⟨_, .next phase inside pass⟩
        | tip p ip => exact ⟨_, .tip phase inside pass⟩
        | unknown => exact ⟨_, .unknown phase inside pass⟩
      · exact ⟨_, .exhausted phase outside⟩
  obtain ⟨t, transition⟩ := exists_transition
  rw [transition.eq_step]
  exact transition

/-- A bound on the steps that remain. -/
def State.remaining (b : Buffer) (s : State) : Nat :=
  match s.phase with
  -- a PSB that has just been found counts less than the search for it, although `p` stays
  | .sync => 3 * (b.len - s.p) + 1
  | .packet => if psbAt b s.p then 3 * (b.len - s.p) else 3 * (b.len - s.p) + 2
  | .done => 0

/-- Moving forward inside the inner loop makes progress; past a PSB it moves by 16. -/
theorem remaining_of_moved {b : Buffer} {s t : State} (phase : s.phase = .packet)
    (phase' : t.phase = .packet) (inside : s.p < b.len) (moved : s.p < t.p)
    (past : psbAt b s.p = true → t.p = s.p + 16) : t.remaining b < s.remaining b := by
  have upper : t.remaining b ≤ 3 * (b.len - t.p) + 2 := by
    simp only [State.remaining, phase']
    split_ifs <;> omega
  by_cases here : psbAt b s.p = true
  · have lower : s.remaining b = 3 * (b.len - s.p) := by simp [State.remaining, phase, here]
    have room := (psbAt_iff.mp here).1
    have := past here
    omega
  · have lower : s.remaining b = 3 * (b.len - s.p) + 2 := by simp [State.remaining, phase, here]
    omega

theorem remaining_step (b : Buffer) (s : State) (running : s.phase ≠ .done) :
    (step b s).remaining b < s.remaining b := by
  have forward := packetPass_forward b s.p s.lastIp
  have atPsb : psbAt b s.p = true → (packetPass b s.p s.lastIp).value = .next (s.p + 16) :=
    fun here => packetPass_psb here s.lastIp
  have transition := transition_step b running
  generalize step b s = t at transition
  cases transition with
  | ended phase outside => simp [State.remaining, phase]
  | synced phase inside found =>
    obtain ⟨low, high, here⟩ := memmem_some found
    simp only [State.remaining, phase, here, if_true]
    omega
  | lost phase inside missing => simp [State.remaining, phase]
  | exhausted phase outside =>
    have absent : ¬ psbAt b s.p = true := by
      rw [psbAt_iff]
      omega
    simp [State.remaining, phase, absent]
  | next phase inside pass =>
    rw [pass] at forward atPsb
    exact remaining_of_moved phase phase inside forward fun here => Pass.next.inj (atPsb here)
  | tip phase inside pass =>
    rw [pass] at forward atPsb
    exact remaining_of_moved phase phase inside forward fun here => absurd (atPsb here) (by simp)
  | unknown phase inside pass =>
    -- the pass at a PSB is known, so the search starts again behind it
    have absent : ¬ psbAt b s.p = true := by
      intro here
      rw [pass] at atPsb
      exact absurd (atPsb here) (by simp)
    simp [State.remaining, phase, absent]

theorem decode_done (b : Buffer) (d : Decoder) : (decode b d).phase = .done := by
  apply halted_of_measure (P := fun _ => True) (step_of_done b) (fun _ _ => trivial)
    (State.remaining b) (fun s _ => remaining_step b s) trivial
  simp only [State.init, State.remaining]
  omega

/-- A halted state that is reached from the start is the result of the decode. -/
theorem decode_eq_of_reaches {b : Buffer} {d : Decoder} {s : State}
    (reached : Reaches (step b) (State.init d) s) (halted : s.phase = .done) : decode b d = s := by
  obtain ⟨n, rfl⟩ := reached
  exact iterate_eq_of_halted (step_of_done b) (decode_done b d) halted

/-- At the end of the buffer both loops are left. -/
theorem decode_of_exhausted {b : Buffer} {d : Decoder} {s : State} (reached : Reaches (step b) (State.init d) s)
    (phase : s.phase = .packet) (outside : b.len ≤ s.p) : decode b d = { s with phase := .done } := by
  have exhausted := (Transition.exhausted phase outside).eq_step
  have ended := (Transition.ended (s := { s with phase := .sync }) rfl outside).eq_step
  have final : Reaches (step b) (State.init d) { s with phase := .done } :=
    reached.trans ⟨2, by simp [exhausted, ended]⟩
  exact decode_eq_of_reaches final rfl

theorem reaches_decode (b : Buffer) (d : Decoder) : Reaches (step b) (State.init d) (decode b d) :=
  ⟨_, rfl⟩

end DevFuzz.PT
