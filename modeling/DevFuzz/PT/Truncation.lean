import DevFuzz.PT.Segments

/-! # Truncated traces

The decode of a front of a buffer runs as the decode of the whole, up to the packet that the
front cuts.  What it logs from there on comes from the bytes of that packet: the IP of a packet
that is cut is taken for zero, and its bytes, or those of an extended packet, are read as
packets of their own.  The bytes that are harmless there are those of `Truncation.Harmless`
(`onlyTruncates_harmless`).
-/

namespace DevFuzz.PT

open DevFuzz.Lib DevFuzz.Lib.Bytes

/-! ## Headers -/

/-- Every entry stands at the header of a packet with an IP. -/
def LoggedHeaders (b : Buffer) (s : State) : Prop :=
  ∀ entry ∈ s.logged, entry.1 < b.len ∧ tipKind? (b.map entry.1) ≠ none

theorem loggedHeaders_step (b : Buffer) (s : State) (held : LoggedHeaders b s) : LoggedHeaders b (step b s) := by
  by_cases halted : s.phase = .done
  · rw [step_of_done b s halted]
    exact held
  · have transition := transition_step b halted
    generalize step b s = t at transition ⊢
    cases transition with
    | tip phase inside pass =>
      intro entry member
      cases List.mem_append.mp member with
      | inl old => exact held entry old
      | inr new =>
        rw [List.mem_singleton.mp new]
        exact ⟨inside, header_of_tip pass⟩
    | _ => exact held

theorem ipsFrom_of_absent {b : Buffer} {c : Nat} (absent : ∀ i, c ≤ i → i < b.len → tipKind? (b.map i) = none)
    (d : Decoder) : ipsFrom c (decode b d).logged = [] := by
  have headers : LoggedHeaders b (decode b d) :=
    (reaches_decode b d).invariant (loggedHeaders_step b) (by simp [LoggedHeaders, State.init])
  refine ipsFrom_of_before fun entry member => ?_
  obtain ⟨inside, header⟩ := headers entry member
  by_contra behind
  exact header (absent entry.1 (Nat.not_lt.mp behind) inside)

theorem packetPass_of_header {b : Buffer} {p : Nat} (header : tipKind? (b.map p) ≠ none) (lastIp : BitVec 64) :
    (packetPass b p lastIp).value =
      .tip (getIpVal b (p + 1) (b.map p >>> 5).toNat lastIp).value.1 (ipAt b p lastIp) := by
  have other : ∀ head : UInt8, tipKind? head ≠ none → head ≠ 2 ∧ head &&& 1 ≠ 0 := forall_byte (by decide)
  obtain ⟨notExt, odd⟩ := other _ header
  obtain ⟨kind, known⟩ := Option.ne_none_iff_exists'.mp header
  rw [packetPass_value]
  simp [List.findSome?, extendedPacket, evenPacket, tipPacket, notExt, odd, known, ipAt]

/-! ## An IP that is zero -/

/-- The number of bytes that `get_ip_val` asks for. -/
def ipSize (ipl : Nat) : Nat := if ipl < 4 then 2 * ipl else 8

section

variable {b : Buffer} {p ipl : Nat}

theorem getIpVal_of_short (short : b.len < p + ipSize ipl) (lastIp : BitVec 64) :
    (getIpVal b p ipl lastIp).value = (p, 0) := by
  unfold ipSize at short
  unfold getIpVal
  split_ifs with none few room room
  · rfl
  · have := of_decide_eq_true room
    rw [if_pos few] at short
    omega
  · rfl
  · have := of_decide_eq_true room
    rw [if_neg few] at short
    omega
  · rfl

theorem getIpVal_of_room (room : p + ipSize ipl ≤ b.len) (lastIp : BitVec 64) :
    (getIpVal b p ipl lastIp).value.1 = p + ipSize ipl := by
  unfold ipSize at room ⊢
  by_cases none : ipl = 0
  · simp [getIpVal, none]
  rw [getIpVal, if_neg none]
  by_cases few : ipl < 4
  · rw [if_pos few] at room ⊢
    have left : b.left p (ipl * 2) = true := decide_eq_true (by omega)
    rw [if_pos few, if_pos left]
    rfl
  · rw [if_neg few] at room ⊢
    have left : b.left p 8 = true := decide_eq_true room
    rw [if_neg few, if_pos left]
    rfl

/-- The low 48 bits of pieces and last IP are zero. -/
theorem mergeIp_eq_zero_iff (lastIp : BitVec 64) (few : ipl < 4) :
    signExtend48 (mergeIp b p ipl 0 lastIp).value = 0 ↔
      (∀ i < 2 * ipl, b.map (p + i) = 0) ∧ ∀ j, 8 * (2 * ipl) ≤ j → j < 48 → lastIp.getLsbD j = false := by
  have zero : signExtend48 0 = 0 := by decide
  have off : ∀ j, (0 : BitVec 64).getLsbD j = false := fun j => BitVec.getLsbD_zero
  rw [← zero, signExtend48_eq_iff]
  simp only [off]
  have bits : ∀ j < 48, (mergeIp b p ipl 0 lastIp).value.getLsbD j =
      if j < 16 * ipl then (b.load (p + 2 * (j / 16)) 2).value.testBit (j % 16) else lastIp.getLsbD j := by
    intro j low
    rw [mergeIp_getLsbD b p ipl 0 lastIp (by omega)]
    simp
  constructor
  · intro all
    refine ⟨fun i inside => ?_, fun j above low => ?_⟩
    · -- the piece of the byte has no bit that is set
      have piece : (b.load (p + 2 * (i / 2)) 2).value = 0 := by
        refine Nat.eq_of_testBit_eq fun m => ?_
        rw [Nat.zero_testBit]
        by_cases small : m < 16
        · have bit := all (16 * (i / 2) + m) (by omega)
          rw [bits _ (by omega), if_pos (by omega)] at bit
          rwa [show (16 * (i / 2) + m) / 16 = i / 2 by omega, show (16 * (i / 2) + m) % 16 = m by omega] at bit
        · have wide : 2 ^ 16 ≤ 2 ^ m := Nat.pow_le_pow_right (by decide) (Nat.not_lt.mp small)
          exact Nat.testBit_lt_two_pow (Nat.lt_of_lt_of_le (load_two_lt b _) wide)
      have byte := (loadLE_eq_zero_iff _ _ _).mp piece (i % 2) (Nat.mod_lt _ (by decide))
      rwa [Nat.add_assoc, Nat.div_add_mod] at byte
    · have bit := all j low
      rwa [bits j low, if_neg (by omega)] at bit
  · rintro ⟨bytes, kept⟩ j low
    rw [bits j low]
    split_ifs with replaced
    · have piece : (b.load (p + 2 * (j / 16)) 2).value = 0 := by
        refine (loadLE_eq_zero_iff _ _ _).mpr fun i inside => ?_
        rw [Nat.add_assoc]
        exact bytes _ (by omega)
      rw [piece, Nat.zero_testBit]
    · exact kept j (by omega) low

theorem getIpVal_eq_zero_iff (pos : ipl ≠ 0) (room : p + ipSize ipl ≤ b.len) (lastIp : BitVec 64) :
    (getIpVal b p ipl lastIp).value.2 = 0 ↔
      (∀ i < ipSize ipl, b.map (p + i) = 0) ∧ ∀ j, 8 * ipSize ipl ≤ j → j < 48 → lastIp.getLsbD j = false := by
  unfold ipSize at room ⊢
  rw [getIpVal, if_neg pos]
  split_ifs at room ⊢ with few left left
  · exact mergeIp_eq_zero_iff lastIp few
  · exact absurd (by omega) (of_decide_eq_false (Bool.eq_false_iff.mpr left))
  · have small : (b.load p 8).value < 2 ^ 64 := loadLE_lt _ _ _
    have zero : BitVec.ofNat 64 (b.load p 8).value = 0 ↔ (b.load p 8).value = 0 := by
      rw [← BitVec.toNat_inj, BitVec.toNat_ofNat, Nat.mod_eq_of_lt small]
      rfl
    refine zero.trans ((loadLE_eq_zero_iff _ _ _).trans ?_)
    exact (and_iff_left fun j above low => by omega).symm
  · exact absurd room (of_decide_eq_false (Bool.eq_false_iff.mpr left))

end

/-! ## The search in a shorter buffer -/

section

variable {b b' : Buffer} (front : b.Front b')

include front

theorem Buffer.Front.psbAt_iff {q : Nat} : psbAt b' q = true ↔ psbAt b q = true ∧ q + 16 ≤ b'.len := by
  have iff := front.segment.psbAt_iff (q := q)
  rwa [Nat.zero_add] at iff

theorem Buffer.Front.psbAt_eq_false {q : Nat} (absent : psbAt b q = false) : psbAt b' q = false := by
  by_contra here
  have := (front.psbAt_iff.mp (by simpa using here)).1
  simp_all

/-- The PSB that the search finds in the whole buffer is found in the front if it fits. -/
theorem Buffer.Front.memmem_some {p q : Nat} (found : (memmem b p).value = some q) :
    (memmem b' p).value = if q + 16 ≤ b'.len then some q else none := by
  obtain ⟨low, here, first⟩ := memmem_eq_some_iff.mp found
  split_ifs with fits
  · exact memmem_eq_some_iff.mpr
      ⟨low, front.psbAt_iff.mpr ⟨here, fits⟩, fun i low high => front.psbAt_eq_false (first i low high)⟩
  · refine memmem_eq_none_iff.mpr fun i start => ?_
    by_contra present
    -- a PSB in the front is one in the whole buffer, so it does not stand before `q`
    obtain ⟨there, room⟩ := front.psbAt_iff.mp (by simpa using present)
    have before : i < q := by omega
    simp [first i start before] at there

theorem Buffer.Front.memmem_none {p : Nat} (missing : (memmem b p).value = none) : (memmem b' p).value = none := by
  refine memmem_eq_none_iff.mpr fun i start => front.psbAt_eq_false (memmem_eq_none_iff.mp missing i start)

end

/-- MODE, TSC and MTC packets without room are unknown. -/
theorem packetPass_of_short {b : Buffer} {p : Nat} {lastIp : BitVec 64}
    (short : b.map p = 0x99 ∧ b.left p 2 = false ∨ b.map p = 0x19 ∧ b.left p 8 = false ∨
      b.map p = 0x59 ∧ b.left p 2 = false) : (packetPass b p lastIp).value = .unknown := by
  have kinds : tipKind? 0x99 = none ∧ tipKind? 0x19 = none ∧ tipKind? 0x59 = none := by decide
  rw [packetPass_value]
  rcases short with ⟨head, short⟩ | ⟨head, short⟩ | ⟨head, short⟩ <;>
    simp +decide [List.findSome?, extendedPacket, evenPacket, tipPacket, modePacket, tscPacket, mtcPacket, cycPacket,
      head, short, kinds]

/-! ## Lockstep -/

/-- A buffer and a front of it. -/
structure Truncation where
  whole : Buffer
  part : Buffer
  isFront : whole.Front part
  nonempty : 0 < part.len

namespace Truncation

variable (t : Truncation)

/-- The IPs that the decode of the front reports are the first ones that the decode of the whole reports. -/
def OnlyTruncates (d d' : Decoder) : Prop :=
  (decode t.part d').logged.map Prod.snd <+: (decode t.whole d).logged.map Prod.snd

/-- The pass at `c` does not end in the front: the packet ends behind it, or is an MNT that ends just there, for
    which the decoder asks one byte more. -/
def Cuts (c : Nat) : Prop :=
  (∃ stop, (packetPass t.whole c 0).value.stop? = some stop ∧ t.part.len < stop) ∨
    mntAt t.whole c ∧ c + 10 = t.part.len

/-- The decode of the whole stands at a packet which the front cuts. -/
structure CutAt (d : Decoder) (s : State) : Prop where
  reached : Reaches (step t.whole) (State.init d) s
  phase : s.phase = .packet
  inside : s.p < t.part.len
  cut : t.Cuts s.p

/-- The bytes of the packet at the cursor say nothing in the front that they do not say in the whole.  An IP is
    zero: its bytes are, and so are the bits that it keeps of the last IP.  In an extended packet, no byte of the
    front behind the first one is the header of a packet with an IP. -/
structure Harmless (s : State) : Prop where
  ipBytes : tipKind? (t.whole.map s.p) ≠ none →
    ∀ i < ipSize (t.whole.map s.p >>> 5).toNat, t.whole.map (s.p + 1 + i) = 0
  lastIp : tipKind? (t.whole.map s.p) ≠ none →
    ∀ j, 8 * ipSize (t.whole.map s.p >>> 5).toNat ≤ j → j < 48 → s.lastIp.getLsbD j = false
  extended : t.whole.map s.p = 2 → ∀ i, s.p < i → i < t.part.len → tipKind? (t.whole.map i) = none

/-- The two decodes have done the same. -/
structure Locked (s s' : State) : Prop where
  phase : s'.phase = s.phase
  position : s'.p = s.p
  lastIp : s'.lastIp = s.lastIp
  logged : s'.logged = s.logged

/-- The decode of the whole is behind the front, or at a PSB for which the front has no room. -/
def Past (s : State) : Prop :=
  t.part.len ≤ s.p ∨ s.phase = .packet ∧ psbAt t.whole s.p = true ∧ t.part.len < s.p + 16

/-- How far the decode of the front has followed the one of the whole. -/
inductive Follows (d d' : Decoder) (s : State) : Prop where
  | locked {s' : State} (reached : Reaches (step t.part) (State.init d') s') (same : Locked s s')
  | ended (logged : (decode t.part d').logged <+: s.logged)
      (before : ∀ entry ∈ (decode t.part d').logged, entry.1 < s.p) (past : t.Past s)
  | cut {c : State} (here : t.CutAt d c) (past : t.part.len ≤ s.p)

variable {t} {d d' : Decoder} {s : State}

theorem le_of_cuts {c stop : Nat} {lastIp : BitVec 64} (cut : t.Cuts c)
    (ends : (packetPass t.whole c lastIp).value.stop? = some stop) : t.part.len ≤ stop := by
  rw [packetPass_stop t.whole c lastIp 0] at ends
  rcases cut with ⟨stop', ends', behind⟩ | ⟨⟨-, mnt⟩, atEnd⟩
  · obtain rfl := Option.some.inj (ends.symm.trans ends')
    exact Nat.le_of_lt behind
  · rw [mnt] at ends
    obtain rfl := Option.some.inj ends
    exact atEnd.ge

/-- A packet that is not cut is decoded in the front. -/
theorem packetPass_of_not_cuts {c stop : Nat} {lastIp : BitVec 64} (inside : c < t.part.len) (whole : ¬ t.Cuts c)
    (ends : (packetPass t.whole c lastIp).value.stop? = some stop) :
    (packetPass t.part c lastIp).value = (packetPass t.whole c lastIp).value := by
  have ends' := ends
  rw [packetPass_stop t.whole c lastIp 0] at ends'
  have fits : stop ≤ t.part.len := by
    by_contra behind
    exact whole (.inl ⟨stop, ends', Nat.not_le.mp behind⟩)
  refine t.isFront.packetPass inside ⟨stop, ends, fits⟩ fun two ten atEnd => whole (.inr ⟨⟨two, ?_⟩, atEnd⟩)
  rw [packetPass_withIp t.whole c 0 lastIp, ten]
  rfl

theorem Past.step (past : t.Past s) : t.Past (step t.whole s) := by
  cases past with
  | inl behind => exact .inl (behind.trans (later_step t.whole s).position)
  | inr atPsb =>
    obtain ⟨phase, psb, short⟩ := atPsb
    have inside := (psbAt_iff.mp psb).1
    rw [(Transition.next phase (by omega) (packetPass_psb psb s.lastIp)).eq_step]
    exact .inl (Nat.le_of_lt short)

/-- The decode of the front has ended where the other one stands at `s`. -/
theorem Follows.of_final {u : State} (final : (decode t.part d').logged = s.logged) (before : LoggedBefore s)
    (later : Later s u) (past : t.Past u) : t.Follows d d' u := by
  obtain ⟨position, more, logged, -⟩ := later
  rw [← final] at logged
  refine .ended ⟨more, logged.symm⟩ (fun entry member => ?_) past
  rw [final] at member
  exact Nat.lt_of_lt_of_le (before entry member) position

/-- A packet that ends in the front is decoded by both, and a cut one ends the lockstep. -/
theorem follows_of_packet {s' u : State} {stop : Nat} (reached : Reaches (step t.whole) (State.init d) s)
    (reached' : Reaches (step t.part) (State.init d') s') (same : Locked s s') (phase : s.phase = .packet)
    (ends : (packetPass t.whole s.p s.lastIp).value.stop? = some stop) (position : u.p = stop) (later : Later s u)
    (lockstep : s'.p < t.part.len →
      (packetPass t.part s'.p s'.lastIp).value = (packetPass t.whole s.p s.lastIp).value →
      Locked u (step t.part s')) : t.Follows d d' u := by
  have phase' := same.phase.trans phase
  by_cases inside : s.p < t.part.len
  · by_cases cut : t.Cuts s.p
    · exact .cut ⟨reached, phase, inside, cut⟩ (position ▸ le_of_cuts cut ends)
    · have pass := packetPass_of_not_cuts inside cut ends
      refine .locked (reached'.trans (.single s')) (lockstep (same.position ▸ inside) ?_)
      rw [same.position, same.lastIp]
      exact pass
  · -- the front ended before this packet
    have final := decode_of_exhausted reached' phase' (same.position ▸ Nat.not_lt.mp inside)
    exact .of_final (by rw [final]; exact same.logged) (loggedBefore_of_reaches reached) later
      (.inl ((Nat.not_lt.mp inside).trans later.position))

theorem follows_of_locked {s' : State} (reached : Reaches (step t.whole) (State.init d) s)
    (reached' : Reaches (step t.part) (State.init d') s') (same : Locked s s') :
    t.Follows d d' (step t.whole s) := by
  have front := t.isFront
  have later := later_step t.whole s
  have before := loggedBefore_of_reaches reached
  have onward := reached'.trans (.single s')
  by_cases halted : s.phase = .done
  · rw [step_of_done t.whole s halted]
    exact .locked reached' same
  have transition := transition_step t.whole halted
  generalize step t.whole s = u at transition later ⊢
  cases transition with
  | ended phase outside =>
    have outside' : t.part.len ≤ s'.p := same.position ▸ front.len.trans outside
    have ended := (Transition.ended (same.phase.trans phase) outside').eq_step
    exact .locked onward (by rw [ended]; exact ⟨rfl, same.position, same.lastIp, same.logged⟩)
  | @synced phase inside q found =>
    have found' := front.memmem_some found
    rw [← same.position] at found'
    split_ifs at found' with fits
    · have inside' : s'.p < t.part.len := by
        obtain ⟨low, high, -⟩ := memmem_some found'
        omega
      have synced := (Transition.synced (same.phase.trans phase) inside' found').eq_step
      exact .locked onward (by rw [synced]; exact ⟨rfl, rfl, same.lastIp, same.logged⟩)
    · have final := decode_of_lost reached' (same.phase.trans phase) found'
      exact .of_final (final.trans same.logged) before later
        (.inr ⟨rfl, (memmem_some found).2.2, Nat.not_le.mp fits⟩)
  | lost phase inside missing =>
    have missing' := front.memmem_none missing
    rw [← same.position] at missing'
    have final := decode_of_lost reached' (same.phase.trans phase) missing'
    exact .of_final (final.trans same.logged) before later (.inl front.len)
  | exhausted phase outside =>
    have outside' : t.part.len ≤ s'.p := same.position ▸ front.len.trans outside
    have exhausted := (Transition.exhausted (same.phase.trans phase) outside').eq_step
    exact .locked onward (by rw [exhausted]; exact ⟨rfl, same.position, same.lastIp, same.logged⟩)
  | next phase inside pass =>
    refine follows_of_packet reached reached' same phase (by rw [pass]; rfl) rfl later fun inside' pass' => ?_
    rw [pass] at pass'
    rw [(Transition.next (same.phase.trans phase) inside' pass').eq_step]
    exact ⟨same.phase, rfl, same.lastIp, same.logged⟩
  | tip phase inside pass =>
    refine follows_of_packet reached reached' same phase (by rw [pass]; rfl) rfl later fun inside' pass' => ?_
    rw [pass] at pass'
    rw [(Transition.tip (same.phase.trans phase) inside' pass').eq_step]
    refine ⟨same.phase, rfl, rfl, ?_⟩
    show s'.logged ++ [(s'.p, _)] = s.logged ++ [(s.p, _)]
    rw [same.logged, same.position]
  | unknown phase inside pass =>
    by_cases inside' : s.p < t.part.len
    · have pass' := front.packetPass_unknown inside' pass
      rw [← same.position, ← same.lastIp] at pass'
      have unknown := (Transition.unknown (same.phase.trans phase) (same.position ▸ inside') pass').eq_step
      exact .locked onward (by rw [unknown]; exact ⟨rfl, same.position, same.lastIp, same.logged⟩)
    · have final := decode_of_exhausted reached' (same.phase.trans phase) (same.position ▸ Nat.not_lt.mp inside')
      exact .of_final (by rw [final]; exact same.logged) before later (.inl (Nat.not_lt.mp inside'))

theorem follows_step (reached : Reaches (step t.whole) (State.init d) s) (follows : t.Follows d d' s) :
    t.Follows d d' (step t.whole s) := by
  obtain ⟨position, more, grown, -⟩ := later_step t.whole s
  cases follows with
  | locked reached' same => exact follows_of_locked reached reached' same
  | ended logged before past =>
    refine .ended ?_ (fun entry member => Nat.lt_of_lt_of_le (before entry member) position) past.step
    rw [grown]
    exact logged.trans (List.prefix_append _ _)
  | cut here past => exact .cut here (past.trans position)

theorem follows_of_reaches (d' : Decoder) (reached : Reaches (step t.whole) (State.init d) s) : t.Follows d d' s := by
  have both : Reaches (step t.whole) (State.init d) s ∧ t.Follows d d' s := by
    refine reached.invariant (P := fun s => Reaches (step t.whole) (State.init d) s ∧ t.Follows d d' s) ?_ ?_
    · exact fun s held => ⟨held.1.trans (.single s), follows_step held.1 held.2⟩
    · exact ⟨.refl _, .locked (.refl _) ⟨rfl, rfl, rfl, rfl⟩⟩
  exact both.2

/-! ## The packet that is cut -/

/-- In a CYC packet that is cut, the loop over its bytes runs to the end of the front. -/
theorem packetPass_of_cut_cyc {c stop : Nat} {pass : Pass} (lastIp : BitVec 64) (inside : c < t.part.len)
    (found : (cycPacket t.whole c (t.whole.map c)).value = some pass) (ends : pass.stop? = some stop) (cut : t.part.len < stop) :
    ∃ p, t.part.len ≤ p ∧ (packetPass t.part c lastIp).value = .next p := by
  have head : t.part.map c = t.whole.map c := (t.isFront.map c inside).symm
  have whole := t.isFront.len
  rw [cycPacket] at found
  split_ifs at found with cyc more
  · obtain rfl := Option.some.inj found
    obtain rfl := Option.some.inj ends
    have room : t.part.left c 1 = true := decide_eq_true (by omega)
    have behind : t.part.len ≤ (cycTail t.part c (t.part.len - (c + 1))).value := by
      have tail := t.isFront.segment.cycTail (p := c) (n := t.whole.len - (c + 1)) (m := t.part.len - (c + 1))
        (by omega) (by omega)
      rw [Nat.zero_add, Nat.zero_add] at tail
      cases tail with
      | inl moved =>
        have value := moved.value
        omega
      | inr cut => omega
    refine ⟨_, behind, packetPass_of_cyc (head.symm ▸ cyc) ?_ lastIp⟩
    rw [Bool.and_eq_true] at more
    rw [cycPacket, head, if_pos cyc, if_pos (by rw [room, more.1]; rfl)]
    rfl
  · obtain rfl := Option.some.inj found
    obtain rfl := Option.some.inj ends
    omega

/-- A packet that is cut ends the decode of the front, if it is not extended and has no IP. -/
theorem packetPass_of_cut {c stop : Nat} {lastIp : BitVec 64} (notExt : t.whole.map c ≠ 2)
    (notTip : tipKind? (t.whole.map c) = none) (inside : c < t.part.len)
    (ends : (packetPass t.whole c lastIp).value.stop? = some stop) (cut : t.part.len < stop) :
    (packetPass t.part c lastIp).value = .unknown ∧ t.part.len < c + 16 ∨
      ∃ p, t.part.len ≤ p ∧ (packetPass t.part c lastIp).value = .next p := by
  have head : t.part.map c = t.whole.map c := (t.isFront.map c inside).symm
  refine packetPass_cases (P := fun pass => pass.stop? = some stop → _) ?unknown ?extended ?even ?tip ?mode ?tsc ?mtc
    ?cyc ends
  case unknown =>
    intro ends
    cases ends
  case extended =>
    intro pass found
    exact absurd (extendedPacket_inv found).1 notExt
  case even =>
    intro pass found ends
    obtain rfl := evenPacket_some found
    obtain rfl := Option.some.inj ends
    omega
  case tip =>
    intro pass found
    rw [tipPacket, notTip] at found
    cases found
  case mode =>
    intro pass found ends
    obtain ⟨isMode, -, rfl⟩ := modePacket_some found
    obtain rfl := Option.some.inj ends
    exact .inl ⟨packetPass_of_short (.inl ⟨head.trans isMode, decide_eq_false (by omega)⟩), by omega⟩
  case tsc =>
    intro pass found ends
    obtain ⟨isTsc, -, rfl⟩ := tscPacket_some found
    obtain rfl := Option.some.inj ends
    exact .inl ⟨packetPass_of_short (.inr (.inl ⟨head.trans isTsc, decide_eq_false (by omega)⟩)), by omega⟩
  case mtc =>
    intro pass found ends
    obtain ⟨isMtc, -, rfl⟩ := mtcPacket_some found
    obtain rfl := Option.some.inj ends
    exact .inl ⟨packetPass_of_short (.inr (.inr ⟨head.trans isMtc, decide_eq_false (by omega)⟩)), by omega⟩
  case cyc =>
    intro pass found ends
    exact .inr (packetPass_of_cut_cyc lastIp inside found ends cut)

theorem ipsFrom_of_cut (here : t.CutAt d s) (notExt : t.whole.map s.p ≠ 2)
    (notTip : tipKind? (t.whole.map s.p) = none) : ipsFrom s.p (decode t.part d').logged = [] := by
  obtain ⟨reached, phase, inside, cut⟩ := here
  obtain ⟨stop, ends, behind⟩ : ∃ stop, (packetPass t.whole s.p 0).value.stop? = some stop ∧ t.part.len < stop :=
    cut.resolve_right fun mnt => notExt mnt.1.1
  cases follows_of_reaches d' reached with
  | @locked s' reached' same =>
    have phase' := same.phase.trans phase
    have inside' : s'.p < t.part.len := same.position ▸ inside
    have before := loggedBefore_of_reaches reached'
    have final : (decode t.part d').logged = s'.logged := by
      rw [← same.position] at notExt notTip ends
      have onward := reached'.trans (.single s')
      rcases packetPass_of_cut notExt notTip inside' ((packetPass_stop _ _ s'.lastIp 0).trans ends) behind with
        ⟨unknown, near⟩ | ⟨p, outside, next⟩
      · have taken := (Transition.unknown phase' inside' unknown).eq_step
        rw [taken] at onward
        -- there is no room for a PSB behind the packet
        exact (decode_of_lost onward rfl (memmem_of_short near)).trans rfl
      · have taken := (Transition.next phase' inside' next).eq_step
        rw [taken] at onward
        rw [decode_of_exhausted onward phase' outside]
    rw [final, ← same.position]
    exact ipsFrom_of_before before
  | ended logged before => exact ipsFrom_of_before before
  | cut _ past => omega

theorem onlyTruncates_iff_at (here : t.CutAt d s) :
    t.OnlyTruncates d d' ↔ ipsFrom s.p (decode t.part d').logged <+: ipsFrom s.p (decode t.whole d).logged := by
  obtain ⟨reached, phase, inside, cut⟩ := here
  have split := decode_split reached
  cases follows_of_reaches d' reached with
  | locked reached' same =>
    have split' := decode_split reached'
    rw [same.logged, same.position] at split'
    rw [OnlyTruncates, split, split', List.prefix_append_right_inj]
  | ended logged before =>
    have nothing := ipsFrom_of_before before
    refine iff_of_true ?_ ?_
    · rw [OnlyTruncates, split]
      exact (logged.map Prod.snd).trans (List.prefix_append _ _)
    · rw [nothing]
      exact List.nil_prefix
  | cut _ past => omega

/-! ### A packet with an IP -/

/-- The whole has the bytes of the IP, and the front does not. -/
theorem CutAt.payload (here : t.CutAt d s) (header : tipKind? (t.whole.map s.p) ≠ none) :
    (t.whole.map s.p >>> 5).toNat ≠ 0 ∧ s.p + 1 + ipSize (t.whole.map s.p >>> 5).toNat ≤ t.whole.len ∧
      t.part.len < s.p + 1 + ipSize (t.whole.map s.p >>> 5).toNat := by
  obtain ⟨stop, ends, behind⟩ := here.cut.resolve_right fun mnt => header (by rw [mnt.1.1]; decide)
  rw [packetPass_of_header header] at ends
  obtain rfl := Option.some.inj ends
  have inside := here.inside
  by_cases room : s.p + 1 + ipSize (t.whole.map s.p >>> 5).toNat ≤ t.whole.len
  · rw [getIpVal_of_room room] at behind
    refine ⟨fun none => ?_, room, behind⟩
    have empty : ipSize 0 = 0 := rfl
    rw [none, empty] at behind
    omega
  · rw [getIpVal_of_short (Nat.not_le.mp room)] at behind
    omega

/-- The front takes the IP for zero, and goes on with its bytes. -/
theorem ipsFrom_part (here : t.CutAt d s) (header : tipKind? (t.whole.map s.p) ≠ none) :
    ipsFrom s.p (decode t.part d').logged = 0 :: ipsFrom (s.p + 1) (decode t.part d').logged := by
  obtain ⟨-, -, short⟩ := here.payload header
  cases follows_of_reaches d' here.reached with
  | @locked s' reached' same =>
    have head : t.part.map s.p = t.whole.map s.p := (t.isFront.map s.p here.inside).symm
    have pass := packetPass_of_header (b := t.part) (p := s.p) (by rw [head]; exact header) s'.lastIp
    rw [ipAt, head, getIpVal_of_short short, ← same.position] at pass
    rw [← same.position]
    exact ipsFrom_of_tip reached' (same.phase.trans here.phase) (same.position ▸ here.inside) pass
  | ended _ _ past =>
    -- the front has not ended before, since no PSB stands here
    cases past with
    | inl behind => exact absurd here.inside (Nat.not_lt.mpr behind)
    | inr atPsb =>
      have two : t.whole.map s.p = 2 := (psbAt_iff.mp atPsb.2.1).2 0 (by decide)
      exact absurd (by rw [two]; decide) header
  | cut _ past => exact absurd here.inside (Nat.not_lt.mpr past)

theorem onlyTruncates_iff_of_header (here : t.CutAt d s) (header : tipKind? (t.whole.map s.p) ≠ none) :
    t.OnlyTruncates d d' ↔ t.Harmless s := by
  obtain ⟨pos, room, short⟩ := here.payload header
  have inside := Nat.lt_of_lt_of_le here.inside t.isFront.len
  have whole := ipsFrom_of_tip here.reached here.phase inside (packetPass_of_header header s.lastIp)
  have zero := getIpVal_eq_zero_iff pos room s.lastIp
  rw [onlyTruncates_iff_at here, ipsFrom_part here header, whole, List.cons_prefix_cons]
  constructor
  · rintro ⟨same, -⟩
    obtain ⟨bytes, kept⟩ := zero.mp same.symm
    exact ⟨fun _ => bytes, fun _ => kept, fun two => absurd (by rw [two]; decide) header⟩
  · intro harmless
    refine ⟨(zero.mpr ⟨harmless.ipBytes header, harmless.lastIp header⟩).symm, ?_⟩
    -- what is left of the IP is zero, and zeros are PADs
    have absent : ∀ i, s.p + 1 ≤ i → i < t.part.len → tipKind? (t.part.map i) = none := by
      intro i behind inside
      obtain ⟨j, rfl⟩ := Nat.exists_eq_add_of_le behind
      rw [← t.isFront.map _ inside, harmless.ipBytes header j (by omega)]
      decide
    rw [ipsFrom_of_absent absent]
    exact List.nil_prefix

theorem onlyTruncates_of_harmless (here : t.CutAt d s) (harmless : t.Harmless s) : t.OnlyTruncates d d' := by
  by_cases header : tipKind? (t.whole.map s.p) = none
  · rw [onlyTruncates_iff_at here]
    by_cases two : t.whole.map s.p = 2
    · have absent : ∀ i, s.p ≤ i → i < t.part.len → tipKind? (t.part.map i) = none := by
        intro i low inside
        rw [← t.isFront.map i inside]
        rcases Nat.eq_or_lt_of_le low with rfl | behind
        · exact header
        · exact harmless.extended two i behind inside
      rw [ipsFrom_of_absent absent]
      exact List.nil_prefix
    · rw [ipsFrom_of_cut here two header]
      exact List.nil_prefix
  · exact (onlyTruncates_iff_of_header here header).mpr harmless

end Truncation

/-- Truncating a trace only truncates what is reported, if the bytes of the packet that is cut are harmless.  They
    have to be, unless the packet is an extended one: what its bytes are taken for may happen to be what follows in
    the whole trace. -/
theorem onlyTruncates_harmless (t : Truncation) (d d' : Decoder) :
    ((∀ s, t.CutAt d s → t.Harmless s) → t.OnlyTruncates d d') ∧
      (t.OnlyTruncates d d' → ∀ s, t.CutAt d s → t.whole.map s.p ≠ 2 → t.Harmless s) := by
  constructor
  · intro harmless
    cases Truncation.follows_of_reaches (t := t) d' (reaches_decode t.whole d) with
    | locked reached' same =>
      have final := decode_eq_of_reaches reached' (same.phase.trans (decode_done t.whole d))
      rw [Truncation.OnlyTruncates, final, same.logged]
    | ended logged => exact logged.map Prod.snd
    | cut here past => exact Truncation.onlyTruncates_of_harmless here (harmless _ here)
  · intro truncates s here notExt
    by_cases header : tipKind? (t.whole.map s.p) = none
    · exact ⟨absurd header, absurd header, fun two => absurd two notExt⟩
    · exact (Truncation.onlyTruncates_iff_of_header here header).mp truncates

/-- An MNT packet that is cut behind a byte `0d`, and a TIP without an IP behind the packet. -/
def cutMnt : Truncation where
  whole := .ofList (psb ++ [0x02, 0xc3, 0x88, 0x0d, 0, 0, 0, 0, 0, 0, 0x0d])
  part := .ofList (psb ++ [0x02, 0xc3, 0x88, 0x0d])
  isFront := ⟨by decide, by decide⟩
  nonempty := by decide

/-- The converse fails for an extended packet: the byte of this one and the TIP are both logged with the IP 0. -/
theorem onlyTruncates_cutMnt : cutMnt.OnlyTruncates {} {} ∧ ∃ s, cutMnt.CutAt {} s ∧ ¬ cutMnt.Harmless s := by
  have part : (decode cutMnt.part {}).logged.map Prod.snd = [0] := by decide +kernel
  have whole : (decode cutMnt.whole {}).logged.map Prod.snd = [0] := by decide +kernel
  refine ⟨by rw [Truncation.OnlyTruncates, part, whole], _, ⟨⟨2, rfl⟩, ?_, ?_, .inl ⟨26, ?_, ?_⟩⟩, fun harmless => ?_⟩
  · decide +kernel
  · decide +kernel
  · decide +kernel
  · decide
  · exact absurd (harmless.extended (by decide +kernel) 19 (by decide +kernel) (by decide)) (by decide)

/-- A PSB and a TIP, without the last four bytes of its IP. -/
def cutTip : Truncation where
  whole := .ofList fullTip
  part := .ofList (fullTip.take 19)
  isFront := ⟨by decide, by decide⟩
  nonempty := by decide

/-- The front reports IP 0 for a TIP that it cuts. -/
theorem not_onlyTruncates_cutTip : ¬ cutTip.OnlyTruncates {} {} := by
  have part : (decode cutTip.part {}).logged.map Prod.snd = [0] := by decide +kernel
  have whole : (decode cutTip.whole {}).logged.map Prod.snd = [0xabc56781234] := by decide +kernel
  rw [Truncation.OnlyTruncates, part, whole]
  decide

end DevFuzz.PT
