import DevFuzz.PT.Framing
import DevFuzz.PT.Parts

/-! # Decoding from a PSB on

A decode that comes to a PSB goes on like a decode that starts there, except that it
keeps the last IP: a PSB does not set it to zero.  The first IP packet behind the PSB decides
whether this can be seen.
-/

namespace DevFuzz.PT

open DevFuzz.Lib DevFuzz.Lib.Bytes

/-! ## Two passes compared -/

namespace Pass

def withIp (ip : BitVec 64) : Pass → Pass
  | next p => next p
  | tip p _ => tip p ip
  | unknown => unknown

end Pass

/-- Passes are related when their alternatives are. -/
theorem packetPass_map (f : Pass → Pass) (unknown : f .unknown = .unknown) {b b' : Buffer} {p p' : Nat}
    {lastIp lastIp' : BitVec 64}
    (extended : (extendedPacket b p (b.map p)).value = (extendedPacket b' p' (b'.map p')).value.map f)
    (even : (evenPacket p (b.map p)).value = (evenPacket p' (b'.map p')).value.map f)
    (tip : (tipPacket b p (b.map p) lastIp).value = (tipPacket b' p' (b'.map p') lastIp').value.map f)
    (mode : (modePacket b p (b.map p)).value = (modePacket b' p' (b'.map p')).value.map f)
    (tsc : (tscPacket b p (b.map p)).value = (tscPacket b' p' (b'.map p')).value.map f)
    (mtc : (mtcPacket b p (b.map p)).value = (mtcPacket b' p' (b'.map p')).value.map f)
    (cyc : (cycPacket b p (b.map p)).value = (cycPacket b' p' (b'.map p')).value.map f) :
    (packetPass b p lastIp).value = f (packetPass b' p' lastIp').value := by
  have found : ∀ o : Option Pass, f (o.getD .unknown) = (o.map f).getD .unknown := by
    intro o
    cases o with
    | none => exact unknown
    | some pass => rfl
  rw [packetPass_value, packetPass_value, found, List.map_findSome?]
  simp only [List.findSome?_cons, Function.comp_apply, ← extended, ← even, ← tip, ← mode, ← tsc, ← mtc, ← cyc,
    List.findSome?_nil]

/-! ## The last IP -/

/-- The IP of the packet at `p`. -/
def ipAt (b : Buffer) (p : Nat) (lastIp : BitVec 64) : BitVec 64 :=
  (getIpVal b (p + 1) (b.map p >>> 5).toNat lastIp).value.2

theorem getIpVal_fst (b : Buffer) (p ipl : Nat) (lastIp lastIp' : BitVec 64) :
    (getIpVal b p ipl lastIp).value.1 = (getIpVal b p ipl lastIp').value.1 := by
  unfold getIpVal
  split_ifs <;> simp only [Reading.value_bind, Reading.value_pure]

theorem tipPacket_withIp (b : Buffer) (p : Nat) (lastIp lastIp' : BitVec 64) :
    (tipPacket b p (b.map p) lastIp).value =
      (tipPacket b p (b.map p) lastIp').value.map (Pass.withIp (ipAt b p lastIp)) := by
  unfold tipPacket
  cases tipKind? (b.map p) with
  | none => rfl
  | some kind =>
    have moved := getIpVal_fst b (p + 1) (b.map p >>> 5).toNat lastIp lastIp'
    simp only [Reading.value_bind, Reading.value_pure, Option.map_some, Pass.withIp, ipAt, moved]

theorem modePacket_value {b : Buffer} {p : Nat} {head : UInt8} (taken : (head == 0x99 && b.left p 2) = true) :
    (modePacket b p head).value =
      if b.map (p + 1) >>> 5 = 1 ∨ b.map (p + 1) >>> 5 = 0 then some (.next (p + 2)) else none := by
  rw [modePacket, if_pos taken]
  change (if b.map (p + 1) >>> 5 = 1 then pure (some (.next (p + 2)))
    else if b.map (p + 1) >>> 5 = 0 then pure (some (.next (p + 2))) else pure none : Reading (Option Pass)).value = _
  split_ifs <;> simp_all

/-- A pass uses the last IP for nothing but its own IP. -/
theorem packetPass_withIp (b : Buffer) (p : Nat) (lastIp lastIp' : BitVec 64) :
    (packetPass b p lastIp).value = (packetPass b p lastIp').value.withIp (ipAt b p lastIp) := by
  apply packetPass_map (Pass.withIp (ipAt b p lastIp)) rfl
  case tip => exact tipPacket_withIp b p lastIp lastIp'
  case extended =>
    cases found : (extendedPacket b p (b.map p)).value with
    | none => rfl
    | some pass =>
      obtain ⟨opcode, -, rfl, -⟩ := extendedPacket_some found
      rfl
  case even =>
    unfold evenPacket
    split_ifs <;> rfl
  case mode =>
    by_cases taken : (b.map p == 0x99 && b.left p 2) = true
    · rw [modePacket_value taken]
      split_ifs <;> rfl
    · rw [modePacket, if_neg taken]
      rfl
  case tsc =>
    unfold tscPacket
    split_ifs <;> rfl
  case mtc =>
    unfold mtcPacket
    split_ifs <;> rfl
  case cyc =>
    unfold cycPacket
    split_ifs <;> rfl

/-! ## What the last IP adds -/

theorem load_two_lt (b : Buffer) (p : Nat) : (b.load p 2).value < 65536 := by
  have first := (b.map p).toNat_lt
  have second := (b.map (p + 1)).toNat_lt
  simp only [Buffer.load, loadLE, window, List.range_succ, List.range_zero, List.nil_append, List.map_cons,
    List.map_nil, List.cons_append, leValue_cons, leValue_nil, Nat.add_zero]
  omega

theorem mask16_getLsbD (i : Nat) : (0xffff : BitVec 64).getLsbD i = decide (i < 16) := by
  rw [show (0xffff : BitVec 64) = (BitVec.allOnes 16).setWidth 64 by decide, BitVec.getLsbD_setWidth,
    BitVec.getLsbD_allOnes]
  by_cases low : i < 16
  · simp [low, Nat.lt_trans low (show 16 < 64 by decide)]
  · simp [low]

theorem mergePiece_getLsbD (v : BitVec 64) {piece : Nat} (bound : piece < 65536) (i j : Nat) (inside : j < 64) :
    ((v &&& ~~~((0xffff : BitVec 64) <<< (16 * i))) ||| (BitVec.ofNat 64 piece <<< (16 * i))).getLsbD j =
      if 16 * i ≤ j ∧ j < 16 * i + 16 then piece.testBit (j - 16 * i) else v.getLsbD j := by
  have high : 16 ≤ j - 16 * i → piece.testBit (j - 16 * i) = false := fun large =>
    Nat.testBit_lt_two_pow (Nat.lt_of_lt_of_le bound (Nat.pow_le_pow_right (by decide) large : 2 ^ 16 ≤ _))
  simp only [BitVec.getLsbD_or, BitVec.getLsbD_and, BitVec.getLsbD_not, BitVec.getLsbD_shiftLeft, inside, mask16_getLsbD,
    BitVec.getLsbD_ofNat, decide_true, Bool.true_and]
  by_cases below : j < 16 * i
  · have out : ¬ (16 * i ≤ j ∧ j < 16 * i + 16) := by omega
    simp [below, out]
  · by_cases above : j < 16 * i + 16
    · have here : 16 * i ≤ j ∧ j < 16 * i + 16 := by omega
      have low : j - 16 * i < 16 := by omega
      have small : j - 16 * i < 64 := by omega
      simp [below, here, low, small]
    · have out : ¬ (16 * i ≤ j ∧ j < 16 * i + 16) := by omega
      have large : ¬ j - 16 * i < 16 := by omega
      simp [below, out, large, high (by omega)]

theorem signExtend48_getLsbD (v : BitVec 64) {j : Nat} (inside : j < 64) :
    (signExtend48 v).getLsbD j = if j < 48 then v.getLsbD j else v.getLsbD 47 := by
  have msb : (v <<< 16).msb = v.getLsbD 47 := by
    simp [BitVec.msb_eq_getLsbD_last]
  rw [signExtend48, BitVec.getLsbD_sshiftRight, msb, BitVec.getLsbD_shiftLeft]
  have inside' : ¬ 64 ≤ j := by omega
  by_cases low : j < 48
  · have upper : 16 + j < 64 := by omega
    have lower : ¬ 16 + j < 16 := by omega
    simp [low, inside', upper, lower]
  · have upper : ¬ 16 + j < 64 := by omega
    simp [low, inside', upper]

theorem signExtend48_eq_iff (v w : BitVec 64) :
    signExtend48 v = signExtend48 w ↔ ∀ j < 48, v.getLsbD j = w.getLsbD j := by
  constructor
  · intro same j low
    have bit := congrArg (fun x => x.getLsbD j) same
    simpa only [signExtend48_getLsbD _ (show j < 64 by omega), if_pos low] using bit
  · intro same
    apply BitVec.eq_of_getLsbD_eq
    intro j inside
    rw [signExtend48_getLsbD v inside, signExtend48_getLsbD w inside]
    split_ifs with low
    · exact same j low
    · exact same 47 (by decide)

/-- The pieces replace the low bits; the other ones are those of the last IP. -/
theorem mergeIp_getLsbD (b : Buffer) (p n i : Nat) (v : BitVec 64) {j : Nat} (inside : j < 64) :
    (mergeIp b p n i v).value.getLsbD j =
      if 16 * i ≤ j ∧ j < 16 * (i + n) then (b.load (p + 2 * (j / 16)) 2).value.testBit (j % 16) else v.getLsbD j := by
  induction n generalizing i v with
  | zero =>
    have empty : ¬ (16 * i ≤ j ∧ j < 16 * (i + 0)) := by omega
    rw [if_neg empty]
    rfl
  | succ n ih =>
    have here := mergePiece_getLsbD v (load_two_lt b (p + 2 * i)) i j inside
    rw [mergeIp, Reading.value_bind, ih, here]
    by_cases piece : 16 * i ≤ j ∧ j < 16 * i + 16
    · have index : j / 16 = i := by omega
      have bit : j - 16 * i = j % 16 := by omega
      rw [if_neg (by omega), if_pos piece, if_pos (by omega), index, bit]
    · by_cases later : 16 * (i + 1) ≤ j ∧ j < 16 * (i + 1 + n)
      · rw [if_pos later, if_pos (by omega)]
      · rw [if_neg later, if_neg piece, if_neg (by omega)]

theorem getIpVal_eq_iff (b : Buffer) (p ipl : Nat) (lastIp : BitVec 64) :
    (getIpVal b p ipl lastIp).value.2 = (getIpVal b p ipl 0).value.2 ↔
      (0 < ipl → ipl < 3 → b.left p (ipl * 2) = true → ∀ j, 16 * ipl ≤ j → j < 48 → lastIp.getLsbD j = false) := by
  have zero : ∀ j, (0 : BitVec 64).getLsbD j = false := fun j => BitVec.getLsbD_zero
  unfold getIpVal
  split_ifs with none few room full
  · simp [none]
  · simp only [Reading.value_bind, Reading.value_pure, signExtend48_eq_iff]
    constructor
    · intro same _ _ _ j low high
      have bit := same j high
      rwa [mergeIp_getLsbD b p ipl 0 lastIp (by omega), mergeIp_getLsbD b p ipl 0 0 (by omega), if_neg (by omega),
        if_neg (by omega), zero] at bit
    · intro kept j high
      rw [mergeIp_getLsbD b p ipl 0 lastIp (by omega), mergeIp_getLsbD b p ipl 0 0 (by omega)]
      split_ifs with replaced
      · rfl
      · rw [zero]
        exact kept (by omega) (by omega) room j (by omega) high
  · simp [room]
  · simp only [Reading.value_bind, Reading.value_pure, true_iff]
    intro _ _
    omega
  · simp only [Reading.value_pure, true_iff]
    intro _ _
    omega

/-! ## Buffers with a common end -/

/-- The second buffer is what the first one holds from `k` on. -/
structure Buffer.Suffix (k : Nat) (b b' : Buffer) : Prop where
  len : b.len = k + b'.len
  map : ∀ i, b.map (k + i) = b'.map i

theorem Buffer.suffix_ofList (g s : List UInt8) :
    Buffer.Suffix g.length (.ofList (g ++ s)) (.ofList s) := by
  refine ⟨List.length_append, fun i => ?_⟩
  simp [Buffer.ofList, List.getElem?_append_right]

section

variable {k : Nat} {b b' : Buffer} (suffix : Buffer.Suffix k b b')

include suffix

theorem Buffer.Suffix.segment : Buffer.Segment k b b' := ⟨suffix.len.ge, fun i _ => suffix.map i⟩

theorem Buffer.Suffix.packetPass {p : Nat} (inside : p < b'.len) (lastIp : BitVec 64) :
    (packetPass b (k + p) lastIp).value = (PT.packetPass b' p lastIp).value.shift k := by
  cases suffix.segment.packetPass_or_cut inside lastIp with
  | inl moved => exact moved.value
  | inr cut => exact absurd suffix.len cut.1.ne'

theorem Buffer.Suffix.memmem (p : Nat) : (memmem b (k + p)).value = (PT.memmem b' p).value.map (k + ·) := by
  have room : b.len - (k + p) = b'.len - p := by
    rw [suffix.len]
    omega
  have same : PT.psbAt b ∘ (k + ·) = PT.psbAt b' := funext (suffix.segment.psbAt_eq suffix.len)
  simp only [PT.memmem, room]
  rw [← List.map_add_range', List.find?_map, same]

end

/-! ## Two decodes in step -/

/-- How the decode that comes to the PSB and the one that starts there have logged, when the first came with
    the last IP `lastIp` and the log `earlier`: they agree from the first packet on, if its IP is the same. -/
def LinkedLog (k : Nat) (b' : Buffer) (lastIp : BitVec 64) (earlier : List (Nat × BitVec 64)) (s t : State) : Prop :=
  match t.logged with
  | [] => s.logged = earlier ∧ s.lastIp = lastIp ∧ t.lastIp = 0
  | (p, ip) :: _ =>
    ip = ipAt b' p 0 ∧ (∃ rest, s.logged = earlier ++ (k + p, ipAt b' p lastIp) :: rest) ∧
      (ipAt b' p lastIp = ip →
        s.lastIp = t.lastIp ∧ s.logged = earlier ++ t.logged.map fun entry => (k + entry.1, entry.2))

structure Linked (k : Nat) (b' : Buffer) (lastIp : BitVec 64) (earlier : List (Nat × BitVec 64)) (s t : State) : Prop where
  phase : s.phase = t.phase
  position : s.p = k + t.p
  log : LinkedLog k b' lastIp earlier s t

section

variable {k : Nat} {b b' : Buffer} {lastIp : BitVec 64} {earlier : List (Nat × BitVec 64)} {s t : State}

theorem LinkedLog.congr {s' t' : State} (log : LinkedLog k b' lastIp earlier s t) (logged : s'.logged = s.logged)
    (last : s'.lastIp = s.lastIp) (logged' : t'.logged = t.logged) (last' : t'.lastIp = t.lastIp) :
    LinkedLog k b' lastIp earlier s' t' := by
  rwa [LinkedLog, logged, last, logged', last']

theorem LinkedLog.tip {s' t' : State} (log : LinkedLog k b' lastIp earlier s t)
    (logged : s'.logged = s.logged ++ [(k + t.p, ipAt b' t.p s.lastIp)]) (last : s'.lastIp = ipAt b' t.p s.lastIp)
    (logged' : t'.logged = t.logged ++ [(t.p, ipAt b' t.p t.lastIp)]) (last' : t'.lastIp = ipAt b' t.p t.lastIp) :
    LinkedLog k b' lastIp earlier s' t' := by
  unfold LinkedLog at log ⊢
  rw [logged', logged, last, last']
  cases sofar : t.logged with
  | nil =>
    rw [sofar] at log
    obtain ⟨rfl, rfl, zero⟩ := log
    rw [zero]
    exact ⟨rfl, ⟨[], rfl⟩, fun same => ⟨same, by simp [same]⟩⟩
  | cons entry rest =>
    obtain ⟨p, ip⟩ := entry
    rw [sofar] at log
    obtain ⟨first, ⟨others, written⟩, agree⟩ := log
    refine ⟨first, ⟨others ++ [(k + t.p, ipAt b' t.p s.lastIp)], ?_⟩, fun same => ?_⟩
    · rw [written, List.append_assoc, List.cons_append]
    · obtain ⟨lastSame, all⟩ := agree same
      rw [lastSame, all, List.append_assoc, List.map_append]
      exact ⟨rfl, rfl⟩

theorem packetPass_tip_ip {p p' : Nat} {ip : BitVec 64} (pass : (packetPass b p lastIp).value = .tip p' ip) :
    ip = ipAt b p lastIp := by
  have self := packetPass_withIp b p lastIp lastIp
  rw [pass] at self
  exact (Pass.tip.inj self).2

/-- The pass of the one decode is that of the other, up to the IP. -/
theorem Linked.pass (suffix : Buffer.Suffix k b b') (linked : Linked k b' lastIp earlier s t) (inside : t.p < b'.len) :
    (packetPass b s.p s.lastIp).value =
      ((packetPass b' t.p t.lastIp).value.withIp (ipAt b' t.p s.lastIp)).shift k := by
  rw [linked.position, suffix.packetPass inside, packetPass_withIp b' t.p s.lastIp t.lastIp]

theorem Linked.step (suffix : Buffer.Suffix k b b') (linked : Linked k b' lastIp earlier s t) :
    Linked k b' lastIp earlier (step b s) (step b' t) := by
  have inside : s.p < b.len ↔ t.p < b'.len := by
    rw [linked.position, suffix.len]
    omega
  have search : (memmem b s.p).value = (memmem b' t.p).value.map (k + ·) := by
    rw [linked.position, suffix.memmem]
  have unlogged : ∀ s' t' : State, s'.logged = s.logged → s'.lastIp = s.lastIp → t'.logged = t.logged →
      t'.lastIp = t.lastIp → LinkedLog k b' lastIp earlier s' t' := fun _ _ => linked.log.congr
  by_cases halted : t.phase = .done
  · rw [step_of_done b s (linked.phase.trans halted), step_of_done b' t halted]
    exact linked
  · have transition := transition_step b' halted
    generalize PT.step b' t = t' at transition ⊢
    cases transition with
    | ended phase outside =>
      have outside' := Nat.not_lt.mp (mt inside.mp (Nat.not_lt.mpr outside))
      rw [(Transition.ended (linked.phase.trans phase) outside').eq_step]
      exact ⟨rfl, linked.position, unlogged _ _ rfl rfl rfl rfl⟩
    | synced phase room found =>
      rw [found] at search
      rw [(Transition.synced (linked.phase.trans phase) (inside.mpr room) search).eq_step]
      exact ⟨rfl, rfl, unlogged _ _ rfl rfl rfl rfl⟩
    | lost phase room missing =>
      rw [missing] at search
      rw [(Transition.lost (linked.phase.trans phase) (inside.mpr room) search).eq_step]
      exact ⟨rfl, suffix.len, unlogged _ _ rfl rfl rfl rfl⟩
    | exhausted phase outside =>
      have outside' := Nat.not_lt.mp (mt inside.mp (Nat.not_lt.mpr outside))
      rw [(Transition.exhausted (linked.phase.trans phase) outside').eq_step]
      exact ⟨rfl, linked.position, unlogged _ _ rfl rfl rfl rfl⟩
    | next phase room here =>
      have pass := linked.pass suffix room
      rw [here] at pass
      rw [(Transition.next (linked.phase.trans phase) (inside.mpr room) pass).eq_step]
      exact ⟨linked.phase, rfl, unlogged _ _ rfl rfl rfl rfl⟩
    | unknown phase room here =>
      have pass := linked.pass suffix room
      rw [here] at pass
      rw [(Transition.unknown (linked.phase.trans phase) (inside.mpr room) pass).eq_step]
      exact ⟨rfl, linked.position, unlogged _ _ rfl rfl rfl rfl⟩
    | tip phase room here =>
      obtain rfl := packetPass_tip_ip here
      have pass := linked.pass suffix room
      rw [here] at pass
      rw [(Transition.tip (linked.phase.trans phase) (inside.mpr room) pass).eq_step]
      refine ⟨linked.phase, rfl, linked.log.tip ?_ rfl rfl rfl⟩
      rw [← linked.position]

end

/-! ## The log of a decode -/

/-- What has been logged lies before `p`. -/
def LoggedBefore (s : State) : Prop := ∀ entry ∈ s.logged, entry.1 < s.p

theorem loggedBefore_step (b : Buffer) (s : State) (before : LoggedBefore s) : LoggedBefore (step b s) := by
  by_cases halted : s.phase = .done
  · rwa [step_of_done b s halted]
  · have forward := packetPass_forward b s.p s.lastIp
    have transition := transition_step b halted
    generalize step b s = t at transition ⊢
    cases transition with
    | ended | exhausted | unknown => exact before
    | synced phase inside found =>
      exact fun entry member => Nat.lt_of_lt_of_le (before entry member) (memmem_some found).1
    | lost phase inside missing => exact fun entry member => Nat.lt_trans (before entry member) inside
    | next phase inside pass =>
      rw [pass] at forward
      exact fun entry member => Nat.lt_trans (before entry member) forward
    | tip phase inside pass =>
      rw [pass] at forward
      intro entry member
      rcases List.mem_append.mp member with old | new
      · exact Nat.lt_trans (before entry old) forward
      · rw [List.mem_singleton.mp new]
        exact forward

/-- The IPs of the packets at offset `k` or behind it. -/
def ipsFrom (k : Nat) (logged : List (Nat × BitVec 64)) : List (BitVec 64) :=
  (logged.filter fun entry => k ≤ entry.1).map Prod.snd

/-- A decode of `before ++ after` that stands at the PSB that `after` starts with, in the packet loop: it has either
    come there from the packet in front of it, or found it. -/
structure Arrival where
  before : List UInt8
  after : List UInt8
  psbFirst : psb <+: after
  decoder : Decoder
  state : State
  reached : Reaches (step (.ofList (before ++ after))) (State.init decoder) state
  phase : state.phase = .packet
  position : state.p = before.length

namespace Arrival

variable (a : Arrival)

def whole : Buffer := .ofList (a.before ++ a.after)

def rest : Buffer := .ofList a.after

/-- From the PSB on, the decode reports the IPs that a decode of the rest alone reports. -/
def Synchronised (d : Decoder) : Prop :=
  ipsFrom a.before.length (decode a.whole a.decoder).logged = (decode a.rest d).logged.map Prod.snd

theorem psbAt_rest : psbAt a.rest 0 = true := by
  obtain ⟨behind, same⟩ := a.psbFirst
  apply psbAt_of_holds
  have all := Buffer.holds_ofList a.after
  rw [← same] at all
  rw [rest, ← same]
  exact (Buffer.holds_append.mp all).1

/-- The state of the other decode when it has found the PSB. -/
theorem linked_start (d : Decoder) :
    Linked a.before.length a.rest a.state.lastIp a.state.logged a.state (step a.rest (State.init d)) := by
  have here := a.psbAt_rest
  have room := (psbAt_iff.mp here).1
  rw [(Transition.synced (s := State.init d) rfl (by show 0 < _; omega) (memmem_zero here)).eq_step]
  exact ⟨a.phase, a.position, rfl, rfl, rfl⟩

theorem linked_decode (d : Decoder) :
    Linked a.before.length a.rest a.state.lastIp a.state.logged (decode a.whole a.decoder) (decode a.rest d) := by
  have suffix : Buffer.Suffix a.before.length a.whole a.rest := Buffer.suffix_ofList a.before a.after
  have linked := iterate_related (fun _ _ => Linked.step suffix) (a.linked_start d) (3 * a.rest.len + 2)
  have ended : (step a.rest)^[3 * a.rest.len + 2] (step a.rest (State.init d)) = decode a.rest d := by
    rw [← Function.iterate_succ_apply, Function.iterate_succ_apply']
    exact step_of_done _ _ (decode_done a.rest d)
  rw [ended] at linked
  have halted := linked.phase.trans (decode_done a.rest d)
  have result : decode a.whole a.decoder = (step a.whole)^[3 * a.rest.len + 2] a.state :=
    decode_eq_of_reaches (a.reached.trans ⟨_, rfl⟩) halted
  rw [result]
  exact linked

theorem loggedBefore : ∀ entry ∈ a.state.logged, entry.1 < a.before.length := by
  have start : LoggedBefore (State.init a.decoder) := nofun
  have before := a.reached.invariant (loggedBefore_step _) start
  rwa [LoggedBefore, a.position] at before

/-- What was logged before the PSB is not looked at. -/
theorem ipsFrom_logged (later : List (Nat × BitVec 64)) :
    ipsFrom a.before.length (a.state.logged ++ later) = ipsFrom a.before.length later := by
  have none : (a.state.logged.filter fun entry => a.before.length ≤ entry.1) = [] := by
    rw [List.filter_eq_nil_iff]
    intro entry member
    have := a.loggedBefore entry member
    simp only [decide_eq_true_eq]
    omega
  rw [ipsFrom, List.filter_append, none, List.nil_append]
  rfl

theorem ipsFrom_shifted (k : Nat) (logged : List (Nat × BitVec 64)) :
    ipsFrom k (logged.map fun entry => (k + entry.1, entry.2)) = logged.map Prod.snd := by
  have all : ∀ entry ∈ logged.map (fun entry => (k + entry.1, entry.2)), decide (k ≤ entry.1) = true := by
    intro shifted member
    obtain ⟨entry, -, rfl⟩ := List.mem_map.mp member
    exact decide_eq_true (Nat.le_add_right k entry.1)
  rw [ipsFrom, List.filter_eq_self.mpr all, List.map_map]
  rfl

/-- The first IP behind the PSB decides. -/
theorem synchronised_iff_first (d : Decoder) :
    a.Synchronised d ↔
      ∀ entry ∈ (decode a.rest d).logged.head?, ipAt a.rest entry.1 a.state.lastIp = ipAt a.rest entry.1 0 := by
  have log := (a.linked_decode d).log
  unfold LinkedLog at log
  unfold Synchronised
  cases logged : (decode a.rest d).logged with
  | nil =>
    rw [logged] at log
    have same := a.ipsFrom_logged []
    rw [List.append_nil] at same
    rw [log.1, same]
    exact ⟨nofun, fun _ => rfl⟩
  | cons entry others =>
    obtain ⟨p, ip⟩ := entry
    rw [logged] at log
    obtain ⟨rfl, ⟨rest, written⟩, agree⟩ := log
    constructor
    · rintro same - ⟨⟩
      have kept : decide (a.before.length ≤ a.before.length + p) = true := decide_eq_true (Nat.le_add_right _ p)
      rw [written, a.ipsFrom_logged, ipsFrom, List.filter_cons, if_pos kept] at same
      exact (List.cons_eq_cons.mp same).1
    · intro first
      rw [(agree (first (p, ipAt a.rest p 0) rfl)).2, a.ipsFrom_logged, ipsFrom_shifted]

/-- The decode is synchronised at the PSB exactly when the first IP packet behind it replaces all bits of the last IP
    that are set below bit 48: only a packet of one or two pieces leaves some in place. -/
theorem resync_iff (d : Decoder) :
    a.Synchronised d ↔
      ∀ entry ∈ (decode a.rest d).logged.head?,
        0 < (a.rest.map entry.1 >>> 5).toNat → (a.rest.map entry.1 >>> 5).toNat < 3 →
        a.rest.left (entry.1 + 1) ((a.rest.map entry.1 >>> 5).toNat * 2) = true →
        ∀ j, 16 * (a.rest.map entry.1 >>> 5).toNat ≤ j → j < 48 → a.state.lastIp.getLsbD j = false := by
  rw [a.synchronised_iff_first]
  exact forall₂_congr fun entry _ => getIpVal_eq_iff a.rest (entry.1 + 1) _ a.state.lastIp

end Arrival

/-- A PSB and a TIP with a full IP. -/
def fullTip : List UInt8 := psb ++ [0x6d, 0x34, 0x12, 0x78, 0x56, 0xbc, 0x0a]

/-- A PSB and a TIP that has the low 16 bits only. -/
def shortTip : List UInt8 := psb ++ [0x2d, 0xef, 0xbe]

/-- The decode of the two, when it comes to the second PSB. -/
def secondPsb : Arrival where
  before := fullTip
  after := shortTip
  psbFirst := List.prefix_append _ _
  decoder := {}
  state := (step (.ofList (fullTip ++ shortTip)))^[3] (State.init {})
  reached := ⟨3, rfl⟩
  phase := by decide +kernel
  position := by decide +kernel

/-- The short TIP takes its high bits from the packet before the PSB. -/
theorem not_synchronised_secondPsb : ¬ secondPsb.Synchronised {} := by
  have reported : ipsFrom 23 (decode (.ofList (fullTip ++ shortTip)) {}).logged = [0xabc5678beef] := by decide +kernel
  have alone : (decode (.ofList shortTip) {}).logged.map Prod.snd = [0xbeef] := by decide +kernel
  intro same
  exact absurd (reported.symm.trans (same.trans alone)) (by decide)

end DevFuzz.PT
