import DevFuzz.PT.Segments
import Mathlib.Data.List.TakeWhile

/-! # Where a decode joins the packets of a trace

The search for a PSB knows nothing of packets: what it finds may be the inside of one.  The
bytes of a PSB are pairs `02 82`, and as packets they are skipped one by one, so both a decode
that starts there and one that comes from the packet in front run to the end of the pairs
(`PairRun.packets`).  From there on they do the same (`Packets.realign`).

At the end of a buffer, too few bytes may be left for the packet that stands there, which is
then read as other packets (`strays_eq_nil_iff`).
-/

namespace DevFuzz.PT

open DevFuzz.Lib DevFuzz.Lib.Bytes

variable {b : Buffer}

/-! ## Packets on the way -/

namespace Buffer.Packets

variable {p q m : Nat} {starts : List Nat}

theorem append {starts' : List Nat} (first : b.Packets p starts m) (second : b.Packets m starts' q) :
    b.Packets p (starts ++ starts') q := by
  induction first with
  | nil => exact second
  | cons inside pass _ ih => exact .cons inside pass (ih second)

theorem single {p' : Nat} (inside : p < b.len) (pass : (packetPass b p 0).value = .next p') : b.Packets p [p] p' :=
  .cons inside (by rw [pass]; rfl) (.nil p')

/-- Two ways from one offset are one way, up to where the shorter one ends. -/
theorem drop {way : List Nat} (short : b.Packets p way m) (packets : b.Packets p starts q) (order : m ≤ q) :
    ∃ rest, starts = way ++ rest ∧ b.Packets m rest q := by
  induction short generalizing starts with
  | nil p => exact ⟨starts, rfl, packets⟩
  | cons inside pass rest ih =>
    cases packets with
    | nil =>
      have forward := lt_of_stop pass
      have := rest.le
      omega
    | cons _ pass' rest' =>
      obtain rfl := Option.some.inj (pass.symm.trans pass')
      obtain ⟨after, rfl, packets⟩ := ih rest' order
      exact ⟨after, rfl, packets⟩

theorem last {x : Nat} (packets : b.Packets p starts q) (last : starts.getLast? = some x) :
    (packetPass b x 0).value.stop? = some q := by
  induction packets with
  | nil => cases last
  | cons inside pass rest ih =>
    cases rest with
    | nil =>
      obtain rfl := Option.some.inj last
      exact pass
    | cons => exact ih (by rwa [List.getLast?_cons_cons] at last)

/-- The packet that ends where the packets end is the last one. -/
theorem concat {x : Nat} (packets : b.Packets p starts q) (member : x ∈ starts) (inside : x < b.len)
    (pass : (packetPass b x 0).value = .next q) :
    ∃ before, starts = before ++ [x] ∧ b.Packets p before x ∧ ∀ i ∈ before, i < x := by
  obtain ⟨before, after⟩ := packets.split (packets.le_of_mem x member) (.inl member)
  obtain ⟨rest, last, nothing⟩ := (single inside pass).drop after (Nat.le_refl q)
  rw [nothing.eq_nil, List.append_nil] at last
  refine ⟨_, ?_, before, fun i early => by simpa using List.mem_takeWhile_imp early⟩
  rw [← last, List.takeWhile_append_dropWhile]

end Buffer.Packets

theorem isTip_of_next {p p' : Nat} (pass : (packetPass b p 0).value = .next p') : isTip b p = false := by
  rw [isTip, pass]

/-! ## The pairs of a PSB -/

/-- The bytes `02 82`. -/
def pairAt (b : Buffer) (p : Nat) : Prop := p + 2 ≤ b.len ∧ b.map p = 2 ∧ b.map (p + 1) = 0x82

theorem pairAt_of_psb {q i : Nat} (here : psbAt b q = true) (inside : i < 8) : pairAt b (q + 2 * i) := by
  obtain ⟨room, bytes⟩ := psbAt_iff.mp here
  have pair : ∀ i < 8, psb.getD (2 * i) 0 = 2 ∧ psb.getD (2 * i + 1) 0 = 0x82 := by decide
  refine ⟨by omega, ?_, ?_⟩
  · rw [bytes _ (by omega)]
    exact (pair i inside).1
  · rw [Nat.add_assoc, bytes _ (by omega)]
    exact (pair i inside).2

/-- From `q` on there are `n` pairs one behind the other, and then no further one. -/
structure PairRun (b : Buffer) (q n : Nat) : Prop where
  pairs : ∀ i < n, pairAt b (q + 2 * i)
  ends : ¬ pairAt b (q + 2 * n)

theorem exists_pairRun (b : Buffer) (q : Nat) : ∃ n, PairRun b q n := by
  classical
  have stops : ∃ n, ¬ pairAt b (q + 2 * n) := ⟨b.len, fun pair => by have := pair.1; omega⟩
  exact ⟨Nat.find stops, fun i low => not_not.mp (Nat.find_min stops low), Nat.find_spec stops⟩

namespace PairRun

variable {q n : Nat} (run : PairRun b q n)

include run

theorem le_of_psb {i : Nat} (here : psbAt b (q + 2 * i) = true) : i ≤ n → i + 8 ≤ n := by
  intro low
  by_contra short
  have pair := pairAt_of_psb here (i := n - i) (by omega)
  rw [Nat.add_assoc, ← Nat.mul_add, Nat.add_sub_of_le low] at pair
  exact run.ends pair

theorem room : 0 < n → q + 2 * n ≤ b.len := by
  intro pos
  have last := (run.pairs (n - 1) (by omega)).1
  omega

/-- A pass in the run stays in it, whether it skips a byte or a PSB. -/
theorem pass {x : Nat} (low : q ≤ x) (high : x < q + 2 * n) :
    x < b.len ∧ ∃ x', x' ≤ q + 2 * n ∧ (packetPass b x 0).value = .next x' := by
  obtain ⟨i, offset⟩ : ∃ i, x = q + 2 * i ∨ x = q + 2 * i + 1 := ⟨(x - q) / 2, by omega⟩
  obtain ⟨room, two, code⟩ := run.pairs i (by omega)
  rcases offset with rfl | rfl
  · refine ⟨by omega, ?_⟩
    by_cases psb : psbAt b (q + 2 * i) = true
    · have := run.le_of_psb psb (by omega)
      exact ⟨_, by omega, packetPass_psb psb 0⟩
    · -- the test for a PSB fails, and the byte is a short TNT
      have none : (extendedPacket b (q + 2 * i) (b.map (q + 2 * i))).value = none := by
        rw [two, extendedPacket_value (show ⟨0x82, 16, (List.range 16).zip PT.psb, [], 16⟩ ∈ opcodes by
          simp [opcodes]) (by omega) code]
        exact if_neg psb
      exact ⟨_, by omega, packetPass_of_even (by rw [two]; decide) none 0⟩
  · exact ⟨by omega, _, by omega, packetPass_of_oneByte (by rw [code]; decide) 0⟩

/-- From anywhere in the run, a decode comes to its end and logs nothing on the way. -/
theorem packets {x : Nat} (low : q ≤ x) (high : x ≤ q + 2 * n) :
    ∃ starts, b.Packets x starts (q + 2 * n) ∧ ∀ i ∈ starts, isTip b i = false := by
  -- by induction on what is left of the run, since a pass may skip one byte or sixteen
  induction left : q + 2 * n - x using Nat.strong_induction_on generalizing x with
  | _ left' ih =>
    by_cases atEnd : x = q + 2 * n
    · subst atEnd
      exact ⟨[], .nil _, nofun⟩
    · obtain ⟨inside, x', high', pass⟩ := run.pass low (by omega)
      have forward : x < x' := lt_of_stop (by rw [pass]; rfl)
      obtain ⟨starts, packets, silent⟩ := ih (q + 2 * n - x') (by omega) (x := x') (by omega) high' rfl
      exact ⟨x :: starts, .cons inside (by rw [pass]; rfl) packets,
        List.forall_mem_cons.mpr ⟨isTip_of_next pass, silent⟩⟩

end PairRun

/-! ## The packet in front -/

theorem getIpVal_le (b : Buffer) (p ipl : Nat) (lastIp : BitVec 64) : (getIpVal b p ipl lastIp).value.1 ≤ p + 8 := by
  unfold getIpVal
  split_ifs <;> simp only [Reading.value_bind, Reading.value_pure] <;> omega

/-- A CYC packet ends with the first even byte. -/
theorem cycTail_le {p q n : Nat} (before : p < q) (even : b.map q &&& 1 = 0) : (cycTail b p n).value ≤ q + 1 := by
  induction n generalizing p with
  | zero =>
    have last : (cycTail b p 0).value = p + 2 := rfl
    omega
  | succ n ih =>
    rw [cycTail_succ]
    split_ifs with more
    · have next : p + 1 ≠ q := by
        rintro rfl
        exact more even
      exact ih (by omega)
    · omega

/-- A packet that starts before a byte 2 does not end far behind it. -/
theorem stop_le {p p' q : Nat} (pass : (packetPass b p 0).value.stop? = some p') (before : p < q)
    (two : b.map q = 2) : p' ≤ q + 16 := by
  have sizes : ∀ opcode ∈ opcodes, opcode.advance ≤ 16 := by decide
  refine packetPass_cases (P := fun pass => pass.stop? = some p' → p' ≤ q + 16) nofun ?extended ?even ?tip ?mode ?tsc
    ?mtc ?cyc pass
  case extended =>
    intro pass found ends
    obtain ⟨opcode, known, rfl, -⟩ := extendedPacket_some found
    have := sizes opcode known
    obtain rfl := Option.some.inj ends
    omega
  case even =>
    intro pass found ends
    obtain rfl := evenPacket_some found
    obtain rfl := Option.some.inj ends
    omega
  case tip =>
    intro pass found ends
    rw [tipPacket] at found
    split at found
    · have bound := getIpVal_le b (p + 1) (b.map p >>> 5).toNat 0
      obtain rfl := Option.some.inj found
      obtain rfl := Option.some.inj ends
      exact Nat.le_trans bound (by omega)
    · cases found
  case mode =>
    intro pass found ends
    obtain ⟨-, -, rfl⟩ := modePacket_some found
    obtain rfl := Option.some.inj ends
    omega
  case tsc =>
    intro pass found ends
    obtain ⟨-, -, rfl⟩ := tscPacket_some found
    obtain rfl := Option.some.inj ends
    omega
  case mtc =>
    intro pass found ends
    obtain ⟨-, -, rfl⟩ := mtcPacket_some found
    obtain rfl := Option.some.inj ends
    omega
  case cyc =>
    intro pass found ends
    rw [cycPacket] at found
    split_ifs at found
    · have bound := cycTail_le (n := b.len - (p + 1)) before (by rw [two]; decide)
      obtain rfl := Option.some.inj found
      obtain rfl := Option.some.inj ends
      exact Nat.le_trans bound (by omega)
    · obtain rfl := Option.some.inj found
      obtain rfl := Option.some.inj ends
      omega

/-- The packets from the first one on that does not start before `q`. -/
theorem Buffer.Packets.dropTo {p q m : Nat} {starts : List Nat} (packets : b.Packets p starts m) (start : p ≤ q)
    (inside : q ≤ m) (two : b.map q = 2) :
    ∃ p', b.Packets p' (starts.dropWhile (· < q)) m ∧ q ≤ p' ∧ p' ≤ q + 16 := by
  induction packets with
  | nil p => exact ⟨p, .nil p, inside, by omega⟩
  | @cons p p' m starts low pass rest ih =>
    by_cases before : p < q
    · rw [List.dropWhile_cons_of_pos (by simpa using before)]
      by_cases further : p' ≤ q
      · exact ih further inside
      · -- the packet at `p` covers `q`
        have all : starts.dropWhile (· < q) = starts := by
          cases rest with
          | nil => rfl
          | cons => exact List.dropWhile_cons_of_neg (by simp; omega)
        rw [all]
        exact ⟨p', rest, by omega, stop_le pass before two⟩
    · rw [List.dropWhile_cons_of_neg (by simpa using before)]
      exact ⟨p, .cons low pass rest, by omega, by omega⟩

/-! ## The meeting point -/

/-- A decode that starts at what looks like a PSB reports the packets that start there or later, also if it is the
    inside of a packet.  The packets are those up to the end of the buffer, or up to a byte 2 that is no
    pair. -/
theorem Buffer.Packets.realign {p q m : Nat} {starts : List Nat} (packets : b.Packets p starts m) (start : p ≤ q)
    (here : psbAt b q = true) (inside : q ≤ m) (edge : m < b.len → b.map m = 2 ∧ b.map (m + 1) ≠ 0x82) :
    ∃ starts', b.Packets q starts' m ∧ ∀ lastIp, ips b lastIp starts' = ips b lastIp (starts.dropWhile (· < q)) := by
  obtain ⟨n, run⟩ := exists_pairRun b q
  have enough := run.le_of_psb (i := 0) here (Nat.zero_le n)
  have room := run.room (by omega)
  -- the packets do not end inside the run: a byte 2 in it starts a pair
  have order : q + 2 * n ≤ m := by
    by_contra beyond
    obtain ⟨two, other⟩ := edge (by omega)
    obtain ⟨i, offset⟩ : ∃ i, m = q + 2 * i ∨ m = q + 2 * i + 1 := ⟨(m - q) / 2, by omega⟩
    obtain ⟨-, -, code⟩ := run.pairs i (by omega)
    rcases offset with rfl | rfl
    · exact other code
    · rw [two] at code
      exact absurd code (by decide)
  obtain ⟨p', packets', low, high⟩ := packets.dropTo start inside (pairAt_of_psb here (i := 0) (by decide)).2.1
  -- both ways lead to the end of the run and are the same from there
  obtain ⟨way, fromPsb, silent⟩ := run.packets (Nat.le_refl q) (by omega)
  obtain ⟨way', fromPacket, silent'⟩ := run.packets low (by omega)
  obtain ⟨rest, all, further⟩ := fromPacket.drop packets' order
  refine ⟨way ++ rest, fromPsb.append further, fun lastIp => ?_⟩
  rw [all, ips_append, ips_append, ips_eq_nil_iff.mpr silent, ips_eq_nil_iff.mpr silent', ipAfter_of_silent silent,
    ipAfter_of_silent silent']

/-! ## The end of a buffer -/

theorem Opcode.compare_of_try {p p' : Nat} {opcode : Opcode} (taken : (opcode.try b p).value = some p') :
    (b.compare p opcode.compared).value = true := by
  simp only [Opcode.try, Reading.value_bind] at taken
  split at taken
  · simp only [Reading.value_bind] at taken
    split at taken
    · assumption
    · cases taken
  · cases taken

/-- The only extended packet that is skipped by 10 bytes is MNT, which needs 11. -/
theorem mnt_of_stop {p : Nat} (pass : (packetPass b p 0).value.stop? = some (p + 10)) (two : b.map p = 2) :
    p + 11 ≤ b.len ∧ b.map (p + 1) = 0xc3 ∧ b.map (p + 2) = 0x88 := by
  have only : ∀ opcode ∈ opcodes, opcode.advance = 10 →
      opcode.code = 0xc3 ∧ opcode.need = 11 ∧ opcode.compared = [(2, 0x88)] := by decide
  refine packetPass_cases (P := fun pass => pass.stop? = some (p + 10) → _) nofun ?extended ?even ?tip ?mode ?tsc ?mtc
    ?cyc pass
  case extended =>
    intro pass found ends
    obtain ⟨-, -, opcode, known, taken, rfl⟩ := extendedPacket_inv found
    obtain ⟨isCode, isNeed, isCompared⟩ := only opcode known (Nat.add_left_cancel (Option.some.inj ends))
    obtain ⟨-, code, need⟩ := Opcode.try_some taken
    have same := Opcode.compare_of_try taken
    rw [isCompared] at same
    exact ⟨isNeed ▸ need, isCode ▸ code, by simpa [Buffer.compare] using same⟩
  case even =>
    intro pass found ends
    obtain rfl := evenPacket_some found
    have := Option.some.inj ends
    omega
  case tip =>
    intro pass found
    rw [two, tipPacket] at found
    cases found
  case mode =>
    intro pass found
    have head := (modePacket_some found).1
    rw [two] at head
    cases head
  case tsc =>
    intro pass found
    have head := (tscPacket_some found).1
    rw [two] at head
    cases head
  case mtc =>
    intro pass found
    have head := (mtcPacket_some found).1
    rw [two] at head
    cases head
  case cyc =>
    intro pass found
    rw [two, cycPacket] at found
    cases found

/-- Where less than 16 bytes are left and no packet is logged, the decode ends with what it has. -/
theorem decode_of_silent {d : Decoder} {s : State} (reached : Reaches (step b) (State.init d) s)
    (phase : s.phase = .packet) (short : b.len < s.p + 16)
    (silent : ∀ starts q, b.Packets s.p starts q → ∀ i ∈ starts, isTip b i = false) :
    (decode b d).logged = s.logged := by
  induction left : b.len - s.p using Nat.strong_induction_on generalizing s with
  | _ left' ih =>
    have onward := reached.trans (.single s)
    by_cases inside : s.p < b.len
    · cases pass : (packetPass b s.p s.lastIp).value with
      | next p' =>
        have ends : (packetPass b s.p 0).value.stop? = some p' := by
          rw [packetPass_stop b s.p 0 s.lastIp, pass]
          rfl
        have forward := lt_of_stop ends
        have taken := (Transition.next phase inside pass).eq_step
        rw [taken] at onward
        have further : ∀ starts q, b.Packets p' starts q → ∀ i ∈ starts, isTip b i = false := by
          intro starts q packets i member
          exact silent (s.p :: starts) q (.cons inside ends packets) i (List.mem_cons_of_mem _ member)
        have short' : b.len < p' + 16 := by omega
        exact (ih (b.len - p') (by omega) onward phase short' further rfl :)
      | tip p' ip =>
        have ends : (packetPass b s.p 0).value.stop? = some p' := by
          rw [packetPass_stop b s.p 0 s.lastIp, pass]
          rfl
        have quiet := silent [s.p] p' (.cons inside ends (.nil p')) s.p (List.mem_singleton_self _)
        rw [packetPass_of_stop ends, quiet] at pass
        cases pass
      | unknown =>
        -- too few bytes are left for the PSB that the decoder now looks for
        have taken := (Transition.unknown phase inside pass).eq_step
        rw [taken] at onward
        exact (decode_of_lost onward rfl (memmem_of_short short)).trans rfl
    · rw [decode_of_exhausted reached phase (Nat.not_lt.mp inside)]

/-- The last bytes are reported just in case one of the packets that they are read as is logged. -/
theorem strays_eq_nil_iff {d : Decoder} {s : State} (reached : Reaches (step b) (State.init d) s)
    (phase : s.phase = .packet) (short : b.len < s.p + 16) :
    ipsFrom s.p (decode b d).logged = [] ↔ ∀ starts q, b.Packets s.p starts q → ∀ i ∈ starts, isTip b i = false := by
  have split := decode_split reached
  constructor
  · intro nothing starts q packets
    obtain ⟨t, further, -, -, logged⟩ := packets.run phase rfl
    have split' := decode_split (reached.trans further)
    rw [logged, split, nothing, List.append_assoc] at split'
    have empty := List.append_eq_nil_iff.mp (List.append_cancel_left split').symm
    exact ips_eq_nil_iff.mp empty.1
  · intro silent
    rw [decode_of_silent reached phase short silent] at split ⊢
    exact List.self_eq_append_right.mp split

end DevFuzz.PT
