import DevFuzz.PT.Resync

/-! # Packets one behind the other

A decode only adds to what it has logged, and what it adds stands behind it (`Later`).  For packets that
stand one behind the other, `ips` is what a decode reports.  In a part of a buffer, the packets that end
there are the same, unless the last one is an MNT packet that ends with the part
(`Segment.packetPass`).
-/

namespace DevFuzz.PT

open DevFuzz.Lib DevFuzz.Lib.Bytes

/-! ## Shorter buffers -/

theorem Pass.stop?_withIp (ip : BitVec 64) (pass : Pass) : (pass.withIp ip).stop? = pass.stop? := by
  cases pass <;> rfl

/-- Where a packet ends does not depend on the last IP. -/
theorem packetPass_stop (b : Buffer) (p : Nat) (lastIp lastIp' : BitVec 64) :
    (packetPass b p lastIp).value.stop? = (packetPass b p lastIp').value.stop? := by
  rw [packetPass_withIp b p lastIp lastIp', Pass.stop?_withIp]

/-- The packet ends inside the buffer. -/
def Pass.Fits (len : Nat) (pass : Pass) : Prop := ∃ p, pass.stop? = some p ∧ p ≤ len

/-- The second buffer is the front of the first. -/
structure Buffer.Front (b b' : Buffer) : Prop where
  len : b'.len ≤ b.len
  map : ∀ i < b'.len, b.map i = b'.map i

section

variable {b b' : Buffer} (front : b.Front b')

include front

theorem Buffer.Front.segment : Buffer.Segment 0 b b' := by
  refine ⟨by rw [Nat.zero_add]; exact front.len, fun i inside => ?_⟩
  rw [Nat.zero_add]
  exact front.map i inside

theorem Buffer.Front.packetPass_or_cut {p : Nat} (inside : p < b'.len) (lastIp : BitVec 64) :
    (packetPass b' p lastIp).value = (packetPass b p lastIp).value ∨
      (packetPass b p lastIp).value.Cut 0 b b' p := by
  have cases := front.segment.packetPass_or_cut inside lastIp
  rw [Nat.zero_add p] at cases
  refine cases.imp_left fun moved => ?_
  rw [moved.value, Pass.shift_zero]

/-- A packet that ends in the shorter buffer is decoded there as it is in the longer one, unless an MNT
    packet ends just there. -/
theorem Buffer.Front.packetPass {p : Nat} (inside : p < b'.len) {lastIp : BitVec 64}
    (fits : (packetPass b p lastIp).value.Fits b'.len)
    (mnt : b.map p = 2 → (packetPass b p lastIp).value = .next (p + 10) → p + 10 ≠ b'.len) :
    (PT.packetPass b' p lastIp).value = (PT.packetPass b p lastIp).value := by
  refine (front.packetPass_or_cut inside lastIp).resolve_right fun cut => ?_
  simp only [Pass.Cut, Nat.zero_add] at cut
  obtain ⟨-, ⟨q, stop, behind⟩ | ⟨two, ten, atEnd⟩⟩ := cut
  · obtain ⟨q', stop', fits⟩ := fits
    obtain rfl := Option.some.inj (stop.symm.trans stop')
    omega
  · exact mnt two ten atEnd

/-- What is no packet in the longer buffer is none in the shorter one. -/
theorem Buffer.Front.packetPass_unknown {p : Nat} (inside : p < b'.len) {lastIp : BitVec 64}
    (unknown : (PT.packetPass b p lastIp).value = .unknown) : (PT.packetPass b' p lastIp).value = .unknown := by
  cases front.packetPass_or_cut inside lastIp with
  | inl same => exact same.trans unknown
  | inr cut =>
    rw [unknown] at cut
    obtain ⟨-, ⟨q, stop, -⟩ | ⟨-, ten, -⟩⟩ := cut
    · cases stop
    · cases ten

end

/-! ## The search for a PSB -/

theorem memmem_eq_some_iff {b : Buffer} {p q : Nat} :
    (memmem b p).value = some q ↔ p ≤ q ∧ psbAt b q = true ∧ ∀ i, p ≤ i → i < q → psbAt b i = false := by
  rw [memmem, List.find?_range'_eq_some]
  constructor
  · rintro ⟨here, member, first⟩
    exact ⟨(List.mem_range'_1.mp member).1, here, fun i low high => by simpa using first i low high⟩
  · rintro ⟨low, here, first⟩
    have room := (psbAt_iff.mp here).1
    exact ⟨here, List.mem_range'_1.mpr (by omega), fun i low high => by simp [first i low high]⟩

theorem memmem_eq_none_iff {b : Buffer} {p : Nat} :
    (memmem b p).value = none ↔ ∀ i, p ≤ i → psbAt b i = false := by
  rw [memmem, List.find?_range'_eq_none]
  constructor
  · intro absent i low
    by_contra here
    have room := (psbAt_iff.mp (by simpa using here)).1
    have := absent i low (by omega)
    simp_all
  · intro absent i low _
    simp [absent i low]

/-- There is no PSB where less than 16 bytes are left. -/
theorem memmem_of_short {b : Buffer} {p : Nat} (short : b.len < p + 16) : (memmem b p).value = none := by
  refine memmem_eq_none_iff.mpr fun i low => ?_
  by_contra here
  have room := (psbAt_iff.mp (by simpa using here)).1
  omega

/-! ## What is still to be logged -/

/-- The second state comes later: packets from the cursor on have been logged. -/
structure Later (s t : State) : Prop where
  position : s.p ≤ t.p
  logged : ∃ more, t.logged = s.logged ++ more ∧ ∀ entry ∈ more, s.p ≤ entry.1

theorem Later.refl (s : State) : Later s s := ⟨Nat.le_refl _, [], by simp, by simp⟩

theorem Later.trans {s t u : State} (first : Later s t) (second : Later t u) : Later s u := by
  obtain ⟨position, more, logged, behind⟩ := first
  obtain ⟨position', more', logged', behind'⟩ := second
  refine ⟨position.trans position', more ++ more', by rw [logged', logged, List.append_assoc], ?_⟩
  intro entry member
  rcases List.mem_append.mp member with old | new
  · exact behind entry old
  · exact position.trans (behind' entry new)

theorem later_step (b : Buffer) (s : State) : Later s (step b s) := by
  by_cases halted : s.phase = .done
  · rw [step_of_done b s halted]
    exact .refl s
  · have forward := packetPass_forward b s.p s.lastIp
    have transition := transition_step b halted
    generalize step b s = t at transition ⊢
    cases transition with
    | ended | exhausted | unknown => exact ⟨Nat.le_refl _, [], by simp, by simp⟩
    | synced phase inside found => exact ⟨(memmem_some found).1, [], by simp, by simp⟩
    | lost phase inside missing => exact ⟨Nat.le_of_lt inside, [], by simp, by simp⟩
    | next phase inside pass =>
      rw [pass] at forward
      exact ⟨Nat.le_of_lt forward, [], by simp, by simp⟩
    | tip phase inside pass =>
      rw [pass] at forward
      exact ⟨Nat.le_of_lt forward, _, rfl, by simp⟩

theorem later_of_reaches {b : Buffer} {s t : State} (reached : Reaches (step b) s t) : Later s t :=
  reached.invariant (P := Later s) (fun t later => later.trans (later_step b t)) (.refl s)

theorem loggedBefore_of_reaches {b : Buffer} {d : Decoder} {s : State}
    (reached : Reaches (step b) (State.init d) s) : LoggedBefore s :=
  reached.invariant (loggedBefore_step b) (by simp [LoggedBefore, State.init])

theorem ipsFrom_of_before {c : Nat} {logged : List (Nat × BitVec 64)} (before : ∀ entry ∈ logged, entry.1 < c) :
    ipsFrom c logged = [] := by
  have none : (logged.filter fun entry => c ≤ entry.1) = [] := by
    rw [List.filter_eq_nil_iff]
    intro entry member
    simpa using before entry member
  rw [ipsFrom, none]
  rfl

/-- What is reported in the end has been logged already, or is at the cursor or behind it. -/
theorem decode_split {b : Buffer} {d : Decoder} {s : State} (reached : Reaches (step b) (State.init d) s) :
    (decode b d).logged.map Prod.snd = s.logged.map Prod.snd ++ ipsFrom s.p (decode b d).logged := by
  have fixed : ∀ s, (fun s : State => s.phase = .done) s → step b s = s := step_of_done b
  have onward := (reaches_decode b d).to_halted fixed (decode_done b d) reached
  obtain ⟨-, more, logged, behind⟩ := later_of_reaches onward
  have all : more.filter (fun entry => s.p ≤ entry.1) = more := by
    rw [List.filter_eq_self]
    intro entry member
    simpa using behind entry member
  have old := ipsFrom_of_before (loggedBefore_of_reaches reached)
  rw [ipsFrom, List.map_eq_nil_iff] at old
  rw [logged, List.map_append, ipsFrom, List.filter_append, old, all, List.nil_append]

/-- A packet that is logged is the first one that is still to be reported. -/
theorem ipsFrom_of_tip {b : Buffer} {d : Decoder} {s : State} {p' : Nat} {ip : BitVec 64}
    (reached : Reaches (step b) (State.init d) s) (phase : s.phase = .packet) (inside : s.p < b.len)
    (pass : (packetPass b s.p s.lastIp).value = .tip p' ip) :
    ipsFrom s.p (decode b d).logged = ip :: ipsFrom p' (decode b d).logged := by
  have taken := (Transition.tip phase inside pass).eq_step
  have before := decode_split reached
  have after := decode_split (reached.trans (.single s))
  rw [taken, List.map_append, List.append_assoc, before] at after
  exact List.append_cancel_left after

/-! ## Packets one behind the other -/

/-- A decode logs the packet at `p`. -/
def isTip (b : Buffer) (p : Nat) : Bool :=
  match (packetPass b p 0).value with
  | .tip _ _ => true
  | _ => false

/-- Only packets of the TIP family are logged. -/
theorem header_of_tip {b : Buffer} {p p' : Nat} {lastIp ip : BitVec 64}
    (pass : (packetPass b p lastIp).value = .tip p' ip) : tipKind? (b.map p) ≠ none := by
  refine packetPass_cases (P := fun pass => pass = .tip p' ip → tipKind? (b.map p) ≠ none) nofun ?extended ?even ?tip
    ?mode ?tsc ?mtc ?cyc pass
  case tip =>
    intro pass found _ none
    rw [tipPacket, none] at found
    cases found
  case extended =>
    intro pass found equal
    obtain ⟨opcode, -, rfl, -⟩ := extendedPacket_some found
    cases equal
  case even =>
    intro pass found equal
    cases evenPacket_some found ▸ equal
  case mode =>
    intro pass found equal
    cases (modePacket_some found).2.2 ▸ equal
  case tsc =>
    intro pass found equal
    cases (tscPacket_some found).2.2 ▸ equal
  case mtc =>
    intro pass found equal
    cases (mtcPacket_some found).2.2 ▸ equal
  case cyc =>
    intro pass found equal
    obtain ⟨p', -, rfl⟩ := cycPacket_some found
    cases equal

/-- From the first offset to the second, the packets start at the given offsets. -/
inductive Buffer.Packets (b : Buffer) : Nat → List Nat → Nat → Prop where
  | nil (p : Nat) : Packets b p [] p
  | cons {p p' q : Nat} {starts : List Nat} (inside : p < b.len) (pass : (packetPass b p 0).value.stop? = some p')
      (rest : Packets b p' starts q) : Packets b p (p :: starts) q

theorem packetPass_of_stop {b : Buffer} {p p' : Nat} (pass : (packetPass b p 0).value.stop? = some p')
    (lastIp : BitVec 64) :
    (packetPass b p lastIp).value = if isTip b p then .tip p' (ipAt b p lastIp) else .next p' := by
  rw [packetPass_withIp b p lastIp 0, isTip]
  cases value : (packetPass b p 0).value with
  | next q =>
    rw [value] at pass
    obtain rfl := Option.some.inj pass
    rfl
  | tip q ip =>
    rw [value] at pass
    obtain rfl := Option.some.inj pass
    rfl
  | unknown =>
    rw [value] at pass
    cases pass

theorem lt_of_stop {b : Buffer} {p p' : Nat} (pass : (packetPass b p 0).value.stop? = some p') : p < p' := by
  have forward := packetPass_forward b p 0
  rw [packetPass_of_stop pass] at forward
  split_ifs at forward
  · exact forward
  · exact forward

namespace Buffer.Packets

variable {b : Buffer} {p q k : Nat} {starts : List Nat}

theorem le (packets : b.Packets p starts q) : p ≤ q := by
  induction packets with
  | nil => exact Nat.le_refl _
  | cons _ pass _ ih => exact Nat.le_trans (Nat.le_of_lt (lt_of_stop pass)) ih

theorem le_of_mem (packets : b.Packets p starts q) : ∀ i ∈ starts, p ≤ i := by
  induction packets with
  | nil => exact nofun
  | cons _ pass _ ih =>
    have forward := lt_of_stop pass
    exact List.forall_mem_cons.mpr ⟨Nat.le_refl _, fun i member => by have := ih i member; omega⟩

theorem eq_nil (packets : b.Packets p starts p) : starts = [] := by
  cases packets with
  | nil => rfl
  | cons _ pass rest =>
    have forward := lt_of_stop pass
    have := rest.le
    omega

/-- The packets before a boundary and those behind it. -/
theorem split (packets : b.Packets p starts q) (start : p ≤ k) (boundary : k ∈ starts ∨ k = q) :
    b.Packets p (starts.takeWhile (· < k)) k ∧ b.Packets k (starts.dropWhile (· < k)) q := by
  induction packets with
  | nil p =>
    obtain rfl : k = p := boundary.resolve_left List.not_mem_nil
    exact ⟨.nil k, .nil k⟩
  | @cons p p' q starts inside pass rest ih =>
    by_cases here : p = k
    · subst here
      rw [List.takeWhile_cons_of_neg (by simp), List.dropWhile_cons_of_neg (by simp)]
      exact ⟨.nil p, .cons inside pass rest⟩
    · have later : k ∈ starts ∨ k = q := by
        cases boundary with
        | inl member => exact .inl ((List.mem_cons.mp member).resolve_left (Ne.symm here))
        | inr atEnd => exact .inr atEnd
      -- the boundary is not inside of the packet
      have next : p' ≤ k := by
        cases later with
        | inl member => exact rest.le_of_mem k member
        | inr atEnd => exact atEnd ▸ rest.le
      obtain ⟨before, after⟩ := ih next later
      have passed : decide (p < k) = true := decide_eq_true (by omega)
      rw [List.takeWhile_cons, List.dropWhile_cons, if_pos passed, if_pos passed]
      exact ⟨.cons inside pass before, after⟩

end Buffer.Packets

/-! ## What is reported -/

/-- The IPs of the packets, after the given last IP. -/
def ips (b : Buffer) : BitVec 64 → List Nat → List (BitVec 64)
  | _, [] => []
  | lastIp, p :: starts =>
    if isTip b p then ipAt b p lastIp :: ips b (ipAt b p lastIp) starts else ips b lastIp starts

def ipAfter (b : Buffer) : BitVec 64 → List Nat → BitVec 64
  | lastIp, [] => lastIp
  | lastIp, p :: starts => ipAfter b (if isTip b p then ipAt b p lastIp else lastIp) starts

section

variable {b : Buffer} {lastIp lastIp' : BitVec 64} {starts : List Nat}

theorem ips_append (before after : List Nat) :
    ips b lastIp (before ++ after) = ips b lastIp before ++ ips b (ipAfter b lastIp before) after := by
  induction before generalizing lastIp with
  | nil => rfl
  | cons p before ih =>
    simp only [List.cons_append, ips, ipAfter, ih]
    split_ifs <;> rfl

theorem length_ips : (ips b lastIp starts).length = starts.countP (isTip b) := by
  induction starts generalizing lastIp with
  | nil => rfl
  | cons p starts ih =>
    rw [ips, List.countP_cons]
    split_ifs with tip
    · rw [List.length_cons, ih]
    · exact ih

theorem ipAfter_of_silent (silent : ∀ p ∈ starts, isTip b p = false) : ipAfter b lastIp starts = lastIp := by
  induction starts generalizing lastIp with
  | nil => rfl
  | cons p starts ih =>
    rw [List.forall_mem_cons] at silent
    rw [ipAfter, silent.1]
    exact ih silent.2

theorem ips_eq_nil_iff : ips b lastIp starts = [] ↔ ∀ p ∈ starts, isTip b p = false := by
  rw [← List.length_eq_zero_iff, length_ips, List.countP_eq_zero]
  simp

/-- The last IP can only be seen in the first packet that is logged. -/
theorem ips_eq_iff :
    ips b lastIp starts = ips b lastIp' starts ↔
      ∀ p, starts.find? (isTip b) = some p → ipAt b p lastIp = ipAt b p lastIp' := by
  induction starts with
  | nil => exact ⟨fun _ => nofun, fun _ => rfl⟩
  | cons p starts ih =>
    rw [ips, ips]
    split_ifs with tip
    · rw [List.find?_cons_of_pos tip]
      constructor
      · intro same q found
        obtain rfl := Option.some.inj found
        exact (List.cons.inj same).1
      · intro same
        rw [same p rfl]
    · rw [List.find?_cons_of_neg tip]
      exact ih

/-- Leaving out the packets in front is not seen if none of them is logged. -/
theorem ips_eq_append_iff {before after : List Nat} :
    ips b lastIp' after = ips b lastIp (before ++ after) ↔ (∀ p ∈ before, isTip b p = false) ∧
      ∀ p, (before ++ after).find? (isTip b) = some p → ipAt b p lastIp = ipAt b p lastIp' := by
  constructor
  · intro same
    have silent : ∀ p ∈ before, isTip b p = false := by
      -- each packet that is logged gives one IP
      have lengths := congrArg List.length same
      rw [length_ips, length_ips, List.countP_append] at lengths
      refine ips_eq_nil_iff.mp (List.length_eq_zero_iff.mp (?_ : (ips b 0 before).length = 0))
      rw [length_ips]
      omega
    have nothing : before.find? (isTip b) = none := List.find?_eq_none.mpr fun p member => by simp [silent p member]
    rw [ips_append, ips_eq_nil_iff.mpr silent, ipAfter_of_silent silent, List.nil_append] at same
    rw [List.find?_append, nothing, Option.none_or]
    exact ⟨silent, ips_eq_iff.mp same.symm⟩
  · rintro ⟨silent, first⟩
    have nothing : before.find? (isTip b) = none := List.find?_eq_none.mpr fun p member => by simp [silent p member]
    rw [List.find?_append, nothing, Option.none_or] at first
    rw [ips_append, ips_eq_nil_iff.mpr silent, ipAfter_of_silent silent, List.nil_append]
    exact (ips_eq_iff.mpr first).symm

end

/-- The inner loop runs over the packets and logs their IPs. -/
theorem Buffer.Packets.run {b : Buffer} {p q : Nat} {starts : List Nat} (packets : b.Packets p starts q) {s : State}
    (phase : s.phase = .packet) (position : s.p = p) :
    ∃ t, Reaches (step b) s t ∧ t.phase = .packet ∧ t.p = q ∧
      t.logged.map Prod.snd = s.logged.map Prod.snd ++ ips b s.lastIp starts := by
  induction packets generalizing s with
  | nil p => exact ⟨s, .refl s, phase, position, by simp [ips]⟩
  | @cons p p' q starts inside pass rest ih =>
    have value := packetPass_of_stop pass s.lastIp
    rw [← position] at inside value
    rw [ips, ← position]
    split_ifs at value ⊢ with tip
    · have taken := (Transition.tip phase inside value).eq_step
      obtain ⟨t, reached, phase', position', logged⟩ := ih (s := step b s) (by rw [taken]; exact phase) (by rw [taken])
      refine ⟨t, (Reaches.single s).trans reached, phase', position', ?_⟩
      rw [logged, taken, List.map_append, List.append_assoc]
      rfl
    · have taken := (Transition.next phase inside value).eq_step
      obtain ⟨t, reached, phase', position', logged⟩ := ih (s := step b s) (by rw [taken]; exact phase) (by rw [taken])
      refine ⟨t, (Reaches.single s).trans reached, phase', position', ?_⟩
      rw [logged, taken]

theorem decode_of_packets {b : Buffer} {q : Nat} {starts : List Nat} (found : (memmem b 0).value = some q)
    (packets : b.Packets q starts b.len) (d : Decoder) : (decode b d).logged.map Prod.snd = ips b 0 starts := by
  have inside : 0 < b.len := by
    have := (memmem_some found).2.1
    omega
  have synced := (Transition.synced (s := State.init d) rfl inside found).eq_step
  obtain ⟨t, reached, phase, position, logged⟩ := packets.run (s := step b (State.init d)) (by rw [synced]) (by rw [synced])
  rw [decode_of_exhausted ((Reaches.single _).trans reached) phase position.ge, logged, synced]
  rfl

/-- Where no PSB follows, the decode ends with what has been logged. -/
theorem decode_of_lost {b : Buffer} {d : Decoder} {s : State} (reached : Reaches (step b) (State.init d) s)
    (phase : s.phase = .sync) (missing : (memmem b s.p).value = none) : (decode b d).logged = s.logged := by
  have done : (step b s).phase = .done ∧ (step b s).logged = s.logged := by
    by_cases inside : s.p < b.len
    · rw [(Transition.lost phase inside missing).eq_step]
      exact ⟨rfl, rfl⟩
    · rw [(Transition.ended phase (Nat.not_lt.mp inside)).eq_step]
      exact ⟨rfl, rfl⟩
  rw [decode_eq_of_reaches (reached.trans (.single _)) done.1, done.2]

/-- Without a PSB nothing is reported. -/
theorem decode_of_missing {b : Buffer} (missing : (memmem b 0).value = none) (d : Decoder) :
    (decode b d).logged = [] :=
  decode_of_lost (.refl _) rfl missing

/-! ## Packets of a part -/

/-- The pass at `p` is that over an MNT packet, which is skipped by 10 bytes. -/
def mntAt (b : Buffer) (p : Nat) : Prop := b.map p = 2 ∧ (packetPass b p 0).value = .next (p + 10)

instance mntAt_decidable (b : Buffer) (p : Nat) : Decidable (mntAt b p) := inferInstanceAs (Decidable (_ ∧ _))

section

variable {k : Nat} {b r : Buffer} (segment : Buffer.Segment k b r)

include segment

theorem Buffer.Segment.packetPass {p p' : Nat} (inside : p < r.len)
    (pass : (packetPass b (k + p) 0).value.stop? = some (k + p')) (fits : p' ≤ r.len)
    (mnt : mntAt b (k + p) → p + 10 ≠ r.len) (lastIp : BitVec 64) :
    (packetPass b (k + p) lastIp).value = (PT.packetPass r p lastIp).value.shift k := by
  cases segment.packetPass_or_cut inside lastIp with
  | inl moved => exact moved.value
  | inr cut =>
    exfalso
    obtain ⟨-, ⟨q, stop, behind⟩ | ⟨two, ten, atEnd⟩⟩ := cut
    · rw [packetPass_stop b (k + p) lastIp 0, pass] at stop
      obtain rfl := Option.some.inj stop
      omega
    · refine mnt ⟨two, ?_⟩ atEnd
      rw [packetPass_withIp b (k + p) 0 lastIp, ten]
      rfl

theorem Buffer.Segment.isTip {p p' : Nat} (inside : p < r.len)
    (pass : (PT.packetPass b (k + p) 0).value.stop? = some (k + p')) (fits : p' ≤ r.len)
    (mnt : mntAt b (k + p) → p + 10 ≠ r.len) :
    (PT.packetPass r p 0).value.stop? = some p' ∧ PT.isTip r p = PT.isTip b (k + p) ∧
      (PT.isTip b (k + p) = true → ∀ lastIp, ipAt r p lastIp = ipAt b (k + p) lastIp) := by
  have same := segment.packetPass inside pass fits mnt
  have ends : (PT.packetPass r p 0).value.stop? = some p' := by
    rw [same, Pass.stop?_shift] at pass
    obtain ⟨stop, found, equal⟩ := Option.map_eq_some_iff.mp pass
    rw [found, Nat.add_left_cancel equal]
  have kind : PT.isTip r p = PT.isTip b (k + p) := by
    rw [PT.isTip, PT.isTip, same]
    cases (PT.packetPass r p 0).value <;> rfl
  refine ⟨ends, kind, fun tip lastIp => ?_⟩
  have here := same lastIp
  rw [packetPass_of_stop pass, packetPass_of_stop ends, kind, if_pos tip, if_pos tip] at here
  exact (Pass.tip.inj here).2.symm

/-- Packets inside the part are packets of the part, and report the same. -/
theorem Buffer.Packets.part {p q : Nat} {starts : List Nat} (packets : b.Packets p starts q) (start : k ≤ p)
    (stop : q ≤ k + r.len) (mnt : ∀ i ∈ starts, mntAt b i → i + 10 ≠ k + r.len) :
    r.Packets (p - k) (starts.map (· - k)) (q - k) ∧ ∀ lastIp, ips r lastIp (starts.map (· - k)) = ips b lastIp starts := by
  induction packets with
  | nil p => exact ⟨.nil _, fun _ => rfl⟩
  | @cons p p' q starts inside pass rest ih =>
    have forward := lt_of_stop pass
    have last := rest.le
    obtain ⟨i, rfl⟩ := Nat.exists_eq_add_of_le start
    obtain ⟨i', rfl⟩ := Nat.exists_eq_add_of_le (show k ≤ p' by omega)
    rw [List.forall_mem_cons] at mnt
    obtain ⟨ends, kind, ip⟩ := segment.isTip (by omega) pass (by omega) fun here => by have := mnt.1 here; omega
    obtain ⟨packets', reported⟩ := ih (by omega) stop mnt.2
    rw [Nat.add_sub_cancel_left] at packets'
    rw [List.map_cons, Nat.add_sub_cancel_left]
    refine ⟨.cons (by omega) ends packets', fun lastIp => ?_⟩
    rw [ips, ips, kind]
    split_ifs with tip
    · rw [ip tip, reported]
    · exact reported lastIp

end

end DevFuzz.PT
