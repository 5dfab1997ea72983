import DevFuzz.PT.Packets
import DevFuzz.PT.Passes

/-! # Framing

On a buffer that holds the encoding of a packet, the decoder moves exactly past
the packet and logs it when it is of the TIP family (`advances_packet`), provided
the packet is `Supported`.  Three advances in the source do not match the format:
OVF is skipped by 8 bytes instead of 2, MNT by 10 instead of 11, and IPBytes 4
reads 8 payload bytes instead of 6.
-/

namespace DevFuzz.PT

open DevFuzz.Lib DevFuzz.Lib.Bytes

/-! ## Runs of the inner loop -/

/-- From `s` the inner loop reaches `p`, logging packets at exactly the given offsets. -/
def Advances (b : Buffer) (s : State) (p : Nat) (tips : List Nat) : Prop :=
  ∃ t, Reaches (step b) s t ∧ t.phase = .packet ∧ t.p = p ∧
    t.logged.map Prod.fst = s.logged.map Prod.fst ++ tips

theorem Advances.trans {b : Buffer} {s : State} {p p' : Nat} {tips tips' : List Nat}
    (first : Advances b s p tips)
    (second : ∀ t : State, t.phase = .packet → t.p = p → Advances b t p' tips') :
    Advances b s p' (tips ++ tips') := by
  obtain ⟨t, reached, phase, position, logged⟩ := first
  obtain ⟨u, reached', phase', position', logged'⟩ := second t phase position
  refine ⟨u, reached.trans reached', phase', position', ?_⟩
  rw [logged', logged, List.append_assoc]

theorem advances_of_next {b : Buffer} {s : State} {p : Nat} (phase : s.phase = .packet)
    (inside : s.p < b.len) (pass : ∀ lastIp, (packetPass b s.p lastIp).value = .next p) :
    Advances b s p [] := by
  have taken := (Transition.next phase inside (pass s.lastIp)).eq_step
  exact ⟨step b s, .single s, by rw [taken]; exact phase, by rw [taken], by rw [taken]; simp⟩

theorem advances_of_tip {b : Buffer} {s : State} {p : Nat} (phase : s.phase = .packet)
    (inside : s.p < b.len) (pass : ∀ lastIp, ∃ ip, (packetPass b s.p lastIp).value = .tip p ip) :
    Advances b s p [s.p] := by
  obtain ⟨ip, value⟩ := pass s.lastIp
  have taken := (Transition.tip phase inside value).eq_step
  exact ⟨step b s, .single s, by rw [taken]; exact phase, by rw [taken], by rw [taken]; simp⟩

/-! ## One packet -/

/-- The packets the decoder frames when `after` bytes follow them in the buffer. -/
def Supported (after : Nat) : Packet → Prop
  | .cbr _ reserved => reserved = 0
  | .ovf => after < 6
  | .mnt payload => OneByte payload.back
  | .tip _ ipBytes _ => ipBytes ≠ .four
  | .mode byte => byte >>> 5 = 0 ∨ byte >>> 5 = 1
  | _ => True

instance (after : Nat) : (packet : Packet) → Decidable (Supported after packet)
  | .cbr _ reserved => inferInstanceAs (Decidable (reserved = 0))
  | .ovf => inferInstanceAs (Decidable (after < 6))
  | .mnt payload => inferInstanceAs (Decidable (OneByte payload.back))
  | .tip _ ipBytes _ => inferInstanceAs (Decidable (ipBytes ≠ .four))
  | .mode byte => inferInstanceAs (Decidable (byte >>> 5 = 0 ∨ byte >>> 5 = 1))
  | .pad | .shortTnt _ | .longTnt _ | .pip _ | .tsc _ | .traceStop | .psbend | .mtc _ | .tma _
  | .vmcs _ | .psb | .cyc _ => .isTrue trivial

/-- A test of the table succeeds. -/
theorem packetPass_of_opcode {b : Buffer} {p : Nat} {opcode : Opcode} (known : opcode ∈ opcodes)
    (head : b.map p = 2) (code : b.map (p + 1) = opcode.code) (room : p + 2 ≤ b.len)
    (need : p + opcode.need ≤ b.len) (same : (b.compare p opcode.compared).value = true)
    (lastIp : BitVec 64) : (packetPass b p lastIp).value = .next (p + opcode.advance) := by
  apply packetPass_of_extended
  have taken : (b.left p opcode.need && (b.compare p opcode.compared).value) = true := by
    simp [Buffer.left, need, same]
  rw [head, extendedPacket_value known room code, if_pos taken]

/-- The tests behind the switch for the TIP family. -/
theorem packetPass_of_other {b : Buffer} {p : Nat} {head : UInt8} (first : b.map p = head)
    (other : head ≠ 2 ∧ head &&& 1 ≠ 0 ∧ tipKind? head = none) (lastIp : BitVec 64) :
    (packetPass b p lastIp).value =
      ([modePacket b p head, tscPacket b p head, mtcPacket b p head, cycPacket b p head].findSome?
        Reading.value).getD .unknown := by
  obtain ⟨notExt, odd, noTip⟩ := other
  rw [packetPass_value, first]
  simp [List.findSome?, extendedPacket, evenPacket, tipPacket, notExt, odd, noTip]

theorem packetPass_tsc {b : Buffer} {p : Nat} (head : b.map p = 0x19) (room : p + 8 ≤ b.len)
    (lastIp : BitVec 64) : (packetPass b p lastIp).value = .next (p + 8) := by
  rw [packetPass_of_other head (by decide)]
  simp [List.findSome?, modePacket, tscPacket, Buffer.left, room]

theorem packetPass_mtc {b : Buffer} {p : Nat} (head : b.map p = 0x59) (room : p + 1 < b.len)
    (lastIp : BitVec 64) : (packetPass b p lastIp).value = .next (p + 2) := by
  have left : p + 2 ≤ b.len := room
  rw [packetPass_of_other head (by decide)]
  simp [List.findSome?, modePacket, tscPacket, mtcPacket, Buffer.left, left]

theorem packetPass_mode {b : Buffer} {p : Nat} (head : b.map p = 0x99)
    (leaf : b.map (p + 1) >>> 5 = 0 ∨ b.map (p + 1) >>> 5 = 1) (room : p + 1 < b.len)
    (lastIp : BitVec 64) : (packetPass b p lastIp).value = .next (p + 2) := by
  have left : p + 2 ≤ b.len := room
  rw [packetPass_of_other head (by decide)]
  rcases leaf with exec | tsx
  · simp [List.findSome?, modePacket, Buffer.left, left, exec]
  · simp [List.findSome?, modePacket, Buffer.left, left, tsx]

theorem cycTail_value {b : Buffer} {init : List UInt8} {last : UInt8}
    (odd : ∀ byte ∈ init, byte &&& 1 ≠ 0) (even : last &&& 1 = 0) {p n : Nat}
    (held : b.Holds (p + 1) (init ++ [last])) (enough : init.length < n) :
    (cycTail b p n).value = p + 1 + (init.length + 1) := by
  induction init generalizing p n with
  | nil =>
    obtain ⟨-, first, -⟩ := Buffer.holds_cons.mp held
    obtain ⟨n, rfl⟩ := Nat.exists_eq_succ_of_ne_zero (Nat.ne_of_gt enough)
    simp [cycTail, first, even]
  | cons byte init ih =>
    obtain ⟨-, first, rest⟩ := Buffer.holds_cons.mp held
    obtain ⟨n, rfl⟩ := Nat.exists_eq_succ_of_ne_zero (Nat.ne_of_gt (Nat.zero_lt_of_lt enough))
    have more : byte &&& 1 ≠ 0 := odd byte List.mem_cons_self
    have tail := ih (fun byte member => odd byte (List.mem_cons_of_mem _ member)) rest
      (Nat.lt_of_succ_lt_succ enough)
    simp only [cycTail, Reading.value_bind, Buffer.deref_value, first, more, ne_eq,
      not_false_eq_true, if_true, tail, List.length_cons]
    omega

theorem packetPass_cyc {b : Buffer} {p : Nat} (bytes : CycBytes)
    (held : b.Holds p (bytes.first :: bytes.more)) (lastIp : BitVec 64) :
    (packetPass b p lastIp).value = .next (p + (1 + bytes.more.length)) := by
  obtain ⟨inside, head, tail⟩ := Buffer.holds_cons.mp held
  have header := bytes.header
  have delimited := bytes.delimited
  apply packetPass_of_cyc (by rw [head]; exact header)
  rw [head]
  -- without the `Exp` bit the packet is its first byte
  by_cases single : bytes.first &&& 4 = 0
  · rw [if_pos single] at delimited
    simp [cycPacket, header, single, delimited]
  · rw [if_neg single] at delimited
    obtain ⟨init, last, shape, odd, even⟩ := delimited
    rw [shape] at tail
    have room := tail.1
    simp only [List.length_append, List.length_singleton] at room
    have value := cycTail_value odd even tail (show init.length < b.len - (p + 1) by omega)
    have left : b.left p 1 = true := by
      simp only [Buffer.left, decide_eq_true_eq]
      omega
    simp only [cycPacket, header, single, left, shape, ne_eq, not_false_eq_true, decide_true,
      Bool.and_true, if_true, Reading.value_bind, Reading.value_pure, value, List.length_append,
      List.length_singleton]
    congr 2
    omega

theorem getIpVal_value {b : Buffer} {p : Nat} {ipBytes : IpBytes} (supported : ipBytes ≠ .four)
    (room : p + ipBytes.payload ≤ b.len) (lastIp : BitVec 64) :
    (getIpVal b p ipBytes.field.toNat lastIp).value.1 = p + ipBytes.payload := by
  cases ipBytes with
  | four => exact absurd rfl supported
  | zero => simp [getIpVal, IpBytes.field, IpBytes.payload]
  | one => simp_all [getIpVal, IpBytes.field, IpBytes.payload, Buffer.left]
  | two => simp_all [getIpVal, IpBytes.field, IpBytes.payload, Buffer.left]
  | three => simp_all [getIpVal, IpBytes.field, IpBytes.payload, Buffer.left]
  | six => simp_all [getIpVal, IpBytes.field, IpBytes.payload, Buffer.left]

theorem tipHeader_spec (kind : TipKind) (ipBytes : IpBytes) :
    tipHeader kind ipBytes ≠ 2 ∧ tipHeader kind ipBytes &&& 1 ≠ 0 ∧
      tipKind? (tipHeader kind ipBytes) = some kind ∧
      tipHeader kind ipBytes >>> 5 = ipBytes.field := by
  cases kind <;> cases ipBytes <;> decide

theorem packetPass_tip {b : Buffer} {p : Nat} {kind : TipKind} {ipBytes : IpBytes}
    (head : b.map p = tipHeader kind ipBytes) (supported : ipBytes ≠ .four)
    (room : p + 1 + ipBytes.payload ≤ b.len) (lastIp : BitVec 64) :
    ∃ ip, (packetPass b p lastIp).value = .tip (p + 1 + ipBytes.payload) ip := by
  obtain ⟨notExt, odd, known, field⟩ := tipHeader_spec kind ipBytes
  refine ⟨(getIpVal b (p + 1) ipBytes.field.toNat lastIp).value.2, ?_⟩
  have position := getIpVal_value supported room lastIp
  rw [packetPass_value, head]
  simp [List.findSome?, extendedPacket, evenPacket, tipPacket, notExt, odd, known, field, position]

theorem advances_opcode {b : Buffer} {s : State} (opcode : Opcode) {rest : List UInt8}
    (known : opcode ∈ opcodes) (phase : s.phase = .packet)
    (held : b.Holds s.p (2 :: opcode.code :: rest)) (need : opcode.need ≤ 2 + rest.length)
    (same : (b.compare s.p opcode.compared).value = true) :
    Advances b s (s.p + opcode.advance) [] := by
  obtain ⟨inside, head, more⟩ := Buffer.holds_cons.mp held
  obtain ⟨-, code, -⟩ := Buffer.holds_cons.mp more
  have room := held.1
  simp only [List.length_cons] at room
  exact advances_of_next phase inside
    (packetPass_of_opcode known head code (by omega) (by omega) same)

theorem advances_oneByte {b : Buffer} {s : State} {byte : UInt8} {rest : List UInt8}
    (phase : s.phase = .packet) (held : b.Holds s.p (byte :: rest)) (one : OneByte byte) :
    Advances b s (s.p + 1) [] := by
  obtain ⟨inside, rfl, -⟩ := Buffer.holds_cons.mp held
  exact advances_of_next phase inside (packetPass_of_oneByte one)

/-- An OVF with fewer than 6 bytes behind it fails the test for OVF; its two bytes are then
    taken for a short TNT and a CYC packet. -/
theorem advances_ovf {b : Buffer} {s : State} (phase : s.phase = .packet)
    (held : b.Holds s.p [0x02, 0xf3]) (near : b.len - (s.p + 2) < 6) :
    Advances b s (s.p + 2) [] := by
  obtain ⟨inside, head, more⟩ := Buffer.holds_cons.mp held
  obtain ⟨inside', code, -⟩ := Buffer.holds_cons.mp more
  have known : (⟨0xf3, 8, [], [], 8⟩ : Opcode) ∈ opcodes := by simp [opcodes]
  -- near the end the opcode is refused, and its two bytes pass as two packets of one byte
  have short : ¬ s.p + 8 ≤ b.len := by omega
  have failed : (extendedPacket b s.p (b.map s.p)).value = none := by
    rw [head, extendedPacket_value known (by omega) code]
    simp [Buffer.left, short]
  have first : Advances b s (s.p + 1) [] :=
    advances_of_next phase inside (packetPass_of_even (by rw [head]; decide) failed)
  refine first.trans fun t phase' position => ?_
  rw [← position] at more
  have second := advances_oneByte phase' more (.inr (by decide))
  rwa [position] at second

/-- The decoder leaves the last byte of an MNT packet to the next pass. -/
theorem advances_mnt {b : Buffer} {s : State} {payload : Vector UInt8 8}
    (phase : s.phase = .packet) (held : b.Holds s.p (0x02 :: 0xc3 :: 0x88 :: payload.toList))
    (one : OneByte payload.back) : Advances b s (s.p + 11) [] := by
  have third : b.map (s.p + 2) = 0x88 := held.2 2 (by simp)
  have known : (⟨0xc3, 11, [(2, 0x88)], [], 10⟩ : Opcode) ∈ opcodes := by simp [opcodes]
  -- the advance of 10 ends at the last payload byte, which is then read as a packet
  have first := advances_opcode _ known phase held (by simp) (by simp [Buffer.compare, third])
  refine first.trans fun t phase' position => ?_
  have last : b.Holds t.p [payload.back] := by
    have room := held.1
    have byte := held.2 10 (by simp)
    simp only [List.length_cons, Vector.length_toList] at room
    simp only [List.getElem_cons_succ, Vector.getElem_toList] at byte
    rw [Vector.back_eq_getElem, position]
    exact Buffer.holds_cons.mpr ⟨by simp only; omega, byte, ⟨by simp; omega, by simp⟩⟩
  have second := advances_oneByte phase' last one
  rwa [position] at second

theorem psbAt_of_holds {b : Buffer} {p : Nat} (held : b.Holds p psb) : psbAt b p = true := by
  refine psbAt_iff.mpr ⟨held.1, fun i bound => ?_⟩
  have inside : i < psb.length := bound
  rw [held.2 i inside]
  simp [inside]

theorem advances_packet {b : Buffer} {s : State} {packet : Packet} (phase : s.phase = .packet)
    (held : b.Holds s.p packet.encode)
    (supported : Supported (b.len - (s.p + packet.size)) packet) :
    Advances b s (s.p + packet.size) (packet.tips s.p) := by
  cases packet with
  | pad => exact advances_oneByte phase held (.inl (by decide))
  | shortTnt tnt => exact advances_oneByte phase held (.inl ⟨tnt.even, tnt.ne_ext⟩)
  | longTnt payload =>
    simpa [Packet.size, Packet.encode, Packet.tips] using
      advances_opcode ⟨0xa3, 8, [], [], 8⟩ (by simp [opcodes]) phase held (by simp) rfl
  | pip payload =>
    simpa [Packet.size, Packet.encode, Packet.tips] using
      advances_opcode ⟨0x43, 8, [], [2, 3, 4, 5, 6, 7], 8⟩ (by simp [opcodes]) phase held (by simp) rfl
  | tsc payload =>
    obtain ⟨inside, head, -⟩ := Buffer.holds_cons.mp held
    have room := held.1
    simp only [Packet.encode, List.length_cons, Vector.length_toList] at room
    simpa [Packet.size, Packet.encode, Packet.tips] using
      advances_of_next phase inside (packetPass_tsc head room)
  | cbr ratio reserved =>
    -- the decoder also compares the reserved byte
    have zero : b.map (s.p + 3) = 0 := (held.2 3 (by simp [Packet.encode])).trans supported
    exact advances_opcode ⟨0x03, 4, [(3, 0)], [], 4⟩ (by simp [opcodes]) phase held (by simp)
      (by simp [Buffer.compare, zero])
  | traceStop => exact advances_opcode ⟨0x83, 2, [], [], 2⟩ (by simp [opcodes]) phase held (by decide) rfl
  | psbend => exact advances_opcode ⟨0x23, 2, [], [], 2⟩ (by simp [opcodes]) phase held (by decide) rfl
  | ovf => exact advances_ovf phase held supported
  | mode byte =>
    obtain ⟨inside, head, more⟩ := Buffer.holds_cons.mp held
    obtain ⟨inside', second, -⟩ := Buffer.holds_cons.mp more
    exact advances_of_next phase inside
      (packetPass_mode head (by rw [second]; exact supported) inside')
  | mtc byte =>
    obtain ⟨inside, head, more⟩ := Buffer.holds_cons.mp held
    obtain ⟨inside', -, -⟩ := Buffer.holds_cons.mp more
    exact advances_of_next phase inside (packetPass_mtc head inside')
  | tma payload =>
    simpa [Packet.size, Packet.encode, Packet.tips] using
      advances_opcode ⟨0x73, 7, [], [], 7⟩ (by simp [opcodes]) phase held (by simp) rfl
  | vmcs payload =>
    simpa [Packet.size, Packet.encode, Packet.tips] using
      advances_opcode ⟨0xc8, 7, [], [], 7⟩ (by simp [opcodes]) phase held (by simp) rfl
  | mnt payload =>
    simpa [Packet.size, Packet.encode, Packet.tips] using advances_mnt phase held supported
  | psb =>
    have here := psbAt_of_holds held
    exact advances_of_next phase (by have := (psbAt_iff.mp here).1; omega) (packetPass_psb here)
  | cyc bytes =>
    obtain ⟨inside, -, -⟩ := Buffer.holds_cons.mp held
    simpa [Packet.size, Packet.encode, Packet.tips, Nat.add_comm] using
      advances_of_next phase inside (packetPass_cyc bytes held)
  | tip kind ipBytes payload =>
    obtain ⟨inside, head, more⟩ := Buffer.holds_cons.mp held
    have room := more.1
    simp only [Vector.length_toList] at room
    simpa [Packet.size, Packet.encode, Packet.tips, Nat.add_assoc, Nat.add_comm 1] using
      advances_of_tip phase inside (packetPass_tip head supported room)

/-! ## Whole streams -/

/-- Every packet of the stream is supported where it stands. -/
def SupportedStream : List Packet → Prop
  | [] => True
  | packet :: packets => Supported (encodeAll packets).length packet ∧ SupportedStream packets

instance : (packets : List Packet) → Decidable (SupportedStream packets)
  | [] => .isTrue trivial
  | packet :: packets =>
    have := instDecidableSupportedStream packets
    inferInstanceAs (Decidable (Supported (encodeAll packets).length packet ∧ SupportedStream packets))

theorem advances_packets {b : Buffer} {s : State} {packets : List Packet}
    (phase : s.phase = .packet) (held : b.Holds s.p (encodeAll packets))
    (exact_ : s.p + (encodeAll packets).length = b.len) (supported : SupportedStream packets) :
    Advances b s b.len (tipOffsets s.p packets) := by
  induction packets generalizing s with
  | nil => exact ⟨s, .refl s, phase, by simpa [encodeAll] using exact_, by simp [tipOffsets]⟩
  | cons packet packets ih =>
    have shape : encodeAll (packet :: packets) = packet.encode ++ encodeAll packets := by
      simp [encodeAll]
    rw [shape] at held exact_
    obtain ⟨here, later⟩ := Buffer.holds_append.mp held
    rw [List.length_append] at exact_
    have first : Advances b s (s.p + packet.size) (packet.tips s.p) := by
      apply advances_packet phase here
      have after : b.len - (s.p + packet.size) = (encodeAll packets).length := by
        simp only [Packet.size]
        omega
      rw [after]
      exact supported.1
    -- the remaining packets start where the first one ends
    refine first.trans fun t phase' position => ?_
    have rest := ih phase' (by rw [position]; exact later)
      (by rw [position, Packet.size]; omega) supported.2
    rwa [position] at rest

/-- The decode of a PSB followed by the packets starts a TIP-family decode, and calls
    `AFLMaybeLog`, at exactly the offsets of the TIP-family packets, in order. -/
def Framed (d : Decoder) (packets : List Packet) : Prop :=
  (decode (.ofList (psb ++ encodeAll packets)) d).logged.map Prod.fst = tipOffsets 16 packets

/-- A buffer that starts with a PSB is synchronised there. -/
theorem memmem_zero {b : Buffer} (here : psbAt b 0 = true) : (memmem b 0).value = some 0 := by
  have room := (psbAt_iff.mp here).1
  obtain ⟨n, len⟩ := Nat.exists_eq_succ_of_ne_zero (show b.len ≠ 0 by omega)
  simp [memmem, len, List.range'_succ, here]

theorem framed_of_supported (d : Decoder) {packets : List Packet}
    (supported : SupportedStream packets) : Framed d packets := by
  unfold Framed
  generalize buffer : Buffer.ofList (psb ++ encodeAll packets) = b
  have whole : b.Holds 0 (psb ++ encodeAll packets) := buffer ▸ Buffer.holds_ofList _
  have length : b.len = 16 + (encodeAll packets).length := by
    rw [← buffer, Buffer.ofList, List.length_append]
    rfl
  obtain ⟨front, stream⟩ := Buffer.holds_append.mp whole
  have here := psbAt_of_holds front
  have inside : 0 < b.len := by omega
  -- the outer loop finds the PSB at offset 0, and the inner loop passes over it
  have synced := (Transition.synced (s := State.init d) rfl inside (memmem_zero here)).eq_step
  have past : Advances b (step b (State.init d)) 16 [] := by
    rw [synced]
    exact advances_of_next rfl inside (packetPass_psb here)
  obtain ⟨t, reached, phase, position, logged⟩ := past.trans fun t phase position =>
    position ▸ advances_packets phase (by rw [position]; exact stream) (by omega) supported
  rw [decode_of_exhausted ((Reaches.single _).trans reached) phase position.ge, logged, synced]
  simp [State.init]

instance (d : Decoder) (packets : List Packet) : Decidable (Framed d packets) :=
  inferInstanceAs (Decidable (_ = _))

/-- A stream with the packets of a PSB+ group, a TIP and an MNT that ends in a PAD byte. -/
def sampleStream : List Packet :=
  [ .cbr 0x18 0, .mode 0x20, .tip .fup .six #v[1, 2, 3, 4, 5, 6, 7, 8], .psbend,
    .tip .tip .three #v[1, 2, 3, 4, 5, 6], .mnt #v[1, 2, 3, 4, 5, 6, 7, 0], .tip .tipPgd .zero #v[],
    .ovf ]

theorem framed_sampleStream : SupportedStream sampleStream ∧ Framed {} sampleStream := by
  have supported : SupportedStream sampleStream := by decide
  exact ⟨supported, framed_of_supported {} supported⟩

/-- One plain TIP packet: the header byte alone. -/
def plainTip : Packet := .tip .tip .zero #v[]

/-- Each clause of `Supported` is needed: an OVF swallows the packets behind it, the last byte
    of an MNT is decoded as a packet, IPBytes 4 takes two bytes too many, and a reserved MODE
    leaf or CBR byte desynchronises the stream. -/
theorem not_framed :
    ¬ Framed {} (.ovf :: List.replicate 6 plainTip) ∧
      ¬ Framed {} [.mnt #v[0, 0, 0, 0, 0, 0, 0, 0x0d]] ∧
      ¬ Framed {} [.tip .tip .four #v[0, 0, 0, 0, 0, 0], plainTip, plainTip] ∧
      ¬ Framed {} [.mode 0x40, plainTip] ∧
      ¬ Framed {} [.cbr 0x0d 0x01] := by
  refine ⟨?_, ?_, ?_, ?_, ?_⟩ <;> decide +kernel

end DevFuzz.PT
