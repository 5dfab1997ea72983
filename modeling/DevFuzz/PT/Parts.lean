import DevFuzz.PT.Bounds

/-! # Parts of a buffer

The pass over a packet looks at the bytes of the packet and at the end of the buffer.  So in a
part of a buffer it does what it does in the buffer, unless the part cuts the packet
(`Segment.packetPass_or_cut`).  A part may begin behind the buffer's beginning or end before its
end, and one that does neither has the same bytes.

One packet counts as cut although it ends with the part: MNT, which asks for one byte more than
it is skipped by.
-/

namespace DevFuzz.PT

open DevFuzz.Lib DevFuzz.Lib.Bytes

namespace Pass

/-- The pass at an offset that is larger by `k`. -/
def shift (k : Nat) : Pass → Pass
  | next p => next (k + p)
  | tip p ip => tip (k + p) ip
  | unknown => unknown

/-- Where the packet ends. -/
def stop? : Pass → Option Nat
  | .next p => some p
  | .tip p _ => some p
  | .unknown => none

theorem shift_zero (pass : Pass) : pass.shift 0 = pass := by
  cases pass <;> simp [shift]

theorem stop?_shift (k : Nat) (pass : Pass) : (pass.shift k).stop? = pass.stop?.map (k + ·) := by
  cases pass <;> rfl

end Pass

/-- The second buffer is a part of the first, from `k` on. -/
structure Buffer.Segment (k : Nat) (b r : Buffer) : Prop where
  room : k + r.len ≤ b.len
  map : ∀ i < r.len, b.map (k + i) = r.map i

/-- The part ends before the buffer, and the pass at `k + p` goes beyond it or is over an MNT packet that ends with
    it. -/
def Pass.Cut (k : Nat) (b r : Buffer) (p : Nat) (pass : Pass) : Prop :=
  k + r.len < b.len ∧ ((∃ q, pass.stop? = some q ∧ k + r.len < q) ∨
    b.map (k + p) = 2 ∧ pass = .next (k + p + 10) ∧ p + 10 = r.len)

/-- An alternative of the pass at `k + p` is the one at `p` of the part, or the part cuts its packet. -/
def Carried (k : Nat) (b r : Buffer) (p : Nat) (x y : Reading (Option Pass)) : Prop :=
  Reading.Moved (b.len = k + r.len) k (Option.map (Pass.shift k)) x y ∨
    ∃ pass, x.value = some pass ∧ pass.Cut k b r p

theorem Carried.pure {k : Nat} {b r : Buffer} {p : Nat} {x y : Option Pass} (same : x = y.map (Pass.shift k)) :
    Carried k b r p (pure x) (pure y) :=
  .inl (Reading.moved_pure same)

/-- The packets that start with the byte 2 stop behind all bytes that their tests ask for, MNT apart. -/
theorem opcodes_sizes : ∀ opcode ∈ opcodes, 2 ≤ opcode.advance ∧
    (opcode.need ≤ opcode.advance ∨ opcode.need = 11 ∧ opcode.advance = 10) := by
  decide

theorem cycTail_succ (b : Buffer) (p n : Nat) :
    (cycTail b p (n + 1)).value = if b.map (p + 1) &&& 1 ≠ 0 then (cycTail b (p + 1) n).value else p + 2 := by
  change (if b.map (p + 1) &&& 1 ≠ 0 then cycTail b (p + 1) n else pure (p + 2)).value = _
  split <;> rfl

namespace Buffer.Segment

variable {k : Nat} {b r : Buffer} (segment : Segment k b r) {exact : Prop}

include segment

/-! ## Bytes -/

theorem left {p n : Nat} (room : r.left p n = true) : b.left (k + p) n = true := by
  have whole := segment.room
  simp only [Buffer.left, decide_eq_true_eq] at room ⊢
  omega

omit segment in
/-- Only a buffer that goes on behind the part has room where the part has none. -/
theorem longer {p n : Nat} (room : b.left (k + p) n = true) (none : r.left p n = false) : k + r.len < b.len := by
  simp only [Buffer.left, decide_eq_true_eq, decide_eq_false_iff_not] at room none
  omega

theorem deref {i : Nat} (inside : i < r.len) : Reading.Moved exact k id (b.deref (k + i)) (r.deref i) :=
  ⟨segment.map i inside, fun _ => rfl⟩

theorem load {p n : Nat} (room : p + n ≤ r.len) : Reading.Moved exact k id (b.load (k + p) n) (r.load p n) := by
  have same : ∀ i ∈ List.range n, b.map (k + p + i) = r.map (p + i) := by
    intro i member
    have low := List.mem_range.mp member
    rw [Nat.add_assoc]
    exact segment.map (p + i) (by omega)
  constructor
  · simp only [Buffer.load, loadLE, window, id_eq, List.map_congr_left same]
  · intro _
    exact (List.map_add_range' ..).symm

theorem compare {p n : Nat} {expected : List (Nat × UInt8)} (room : p + n ≤ r.len)
    (inside : ∀ entry ∈ expected, entry.1 < n) :
    Reading.Moved exact k id (b.compare (k + p) expected) (r.compare p expected) := by
  have same : ∀ entry ∈ expected, (b.map (k + p + entry.1) == entry.2) = (r.map (p + entry.1) == entry.2) := by
    intro entry member
    have low := inside entry member
    rw [Nat.add_assoc, segment.map (p + entry.1) (by omega)]
  constructor
  · rw [id_eq, Bool.eq_iff_iff]
    simp only [Buffer.compare, List.all_eq_true]
    exact forall₂_congr fun entry member => by rw [same entry member]
  · intro _
    simp [Buffer.compare, Nat.add_assoc]

theorem psbAt_iff {q : Nat} : psbAt r q = true ↔ psbAt b (k + q) = true ∧ q + 16 ≤ r.len := by
  have whole := segment.room
  rw [PT.psbAt_iff, PT.psbAt_iff]
  constructor
  · rintro ⟨room, bytes⟩
    refine ⟨⟨by omega, fun i low => ?_⟩, room⟩
    rw [Nat.add_assoc, segment.map (q + i) (by omega)]
    exact bytes i low
  · rintro ⟨⟨-, bytes⟩, room⟩
    refine ⟨room, fun i low => ?_⟩
    rw [← segment.map (q + i) (by omega), ← Nat.add_assoc]
    exact bytes i low

/-- With a common end, the part has all PSBs of the buffer from `k` on. -/
theorem psbAt_eq (ends : b.len = k + r.len) (q : Nat) : psbAt b (k + q) = psbAt r q := by
  refine Bool.eq_iff_iff.mpr ⟨fun here => segment.psbAt_iff.mpr ⟨here, ?_⟩, fun here => (segment.psbAt_iff.mp here).1⟩
  have room := (PT.psbAt_iff.mp here).1
  omega

/-! ## Packets -/

variable {p : Nat}

/-- A packet behind a test of its head that asks for `n` bytes. -/
theorem guarded {test : Bool} {n : Nat} {x y : Reading (Option Pass)}
    (carried : test = true → p + n ≤ r.len → Carried k b r p x y)
    (ends : ∀ pass, x.value = some pass → ∃ q, pass.stop? = some q ∧ k + p + n ≤ q) :
    Carried k b r p (if test && b.left (k + p) n then x else pure none)
      (if test && r.left p n then y else pure none) := by
  cases test with
  | false => exact .pure rfl
  | true =>
    rw [Bool.true_and, Bool.true_and]
    cases room : r.left p n with
    | true =>
      rw [segment.left room]
      exact carried rfl (of_decide_eq_true room)
    | false =>
      cases room' : b.left (k + p) n with
      | false => exact .pure rfl
      | true =>
        -- the part has no room for the packet, if it is one
        have longer := longer room' room
        cases found : x.value with
        | none => exact .inl ⟨found, fun same => by omega⟩
        | some pass =>
          obtain ⟨q, stop, behind⟩ := ends pass found
          have short := of_decide_eq_false room
          exact .inr ⟨pass, found, longer, .inl ⟨q, stop, by omega⟩⟩

/-- One test of the opcode table. -/
theorem tryOpcode {opcode : Opcode} (known : opcode ∈ opcodes) (two : b.map (k + p) = 2) (room : p + 2 ≤ r.len) :
    Reading.Moved (b.len = k + r.len) k (Option.map (k + ·)) (opcode.try b (k + p)) (opcode.try r p) ∨
      ∃ q, (opcode.try b (k + p)).value = some q ∧ (Pass.next q).Cut k b r p := by
  have second : Reading.Moved (b.len = k + r.len) k id (b.deref (k + p + 1)) (r.deref (p + 1)) := by
    rw [Nat.add_assoc]
    exact segment.deref (by omega)
  cases left : r.left p opcode.need with
  | true =>
    refine .inl (second.bind ?_)
    rw [segment.left left, left, id_eq]
    split_ifs with test
    · refine (segment.compare (of_decide_eq_true left) (opcodes_guarded opcode known).1).bind ?_
      rw [id_eq]
      split_ifs
      · exact ⟨by simp [Nat.add_assoc], fun _ => by simp [Function.comp_def, Nat.add_assoc]⟩
      · exact Reading.moved_pure rfl
    · exact Reading.moved_pure rfl
  | false =>
    have short := of_decide_eq_false left
    cases left' : b.left (k + p) opcode.need with
    | false =>
      refine .inl (second.bind ?_)
      rw [left, left', Bool.and_false, Bool.and_false]
      exact Reading.moved_pure rfl
    | true =>
      have longer := longer left' left
      have nothing : (opcode.try r p).value = none := by
        by_contra taken
        obtain ⟨q, found⟩ := Option.ne_none_iff_exists'.mp taken
        exact short (Opcode.try_some found).2.2
      cases found : (opcode.try b (k + p)).value with
      | none => exact .inl ⟨by rw [found, nothing]; rfl, fun same => by omega⟩
      | some q =>
        obtain ⟨rfl, -⟩ := Opcode.try_some found
        refine .inr ⟨_, rfl, longer, ?_⟩
        obtain ⟨-, enough | ⟨eleven, ten⟩⟩ := opcodes_sizes opcode known
        · exact .inl ⟨_, rfl, by omega⟩
        · rw [ten]
          by_cases behind : r.len < p + 10
          · exact .inl ⟨_, rfl, by omega⟩
          · exact .inr ⟨two, rfl, by omega⟩

theorem extendedPacket (inside : p < r.len) :
    Carried k b r p (extendedPacket b (k + p) (b.map (k + p))) (PT.extendedPacket r p (r.map p)) := by
  have head := segment.map p inside
  rw [PT.extendedPacket, PT.extendedPacket, ← head]
  refine segment.guarded (fun two room => ?_) fun pass found => ?_
  · have all : List.Forall₂ (fun x y => Reading.Moved (b.len = k + r.len) k (Option.map (k + ·)) x y ∨
        ∃ q, x.value = some q ∧ (Pass.next q).Cut k b r p)
        (opcodes.map (Opcode.try b (k + p))) (opcodes.map (Opcode.try r p)) := by
      rw [List.forall₂_map_left_iff, List.forall₂_map_right_iff, List.forall₂_same]
      exact fun opcode known => segment.tryOpcode known (by simpa using two) room
    cases Reading.firstOf_moved all with
    | inl moved =>
      refine .inl (moved.bind (Reading.moved_pure ?_))
      rw [Option.map_map, Option.map_map]
      rfl
    | inr other =>
      obtain ⟨q, found, cut⟩ := other
      exact .inr ⟨.next q, by rw [Reading.value_bind, found]; rfl, cut⟩
  · rw [Reading.value_bind, Reading.value_firstOf] at found
    obtain ⟨q, first, rfl⟩ := Option.map_eq_some_iff.mp found
    obtain ⟨x, member, value⟩ := List.exists_of_findSome?_eq_some first
    obtain ⟨opcode, known, rfl⟩ := List.mem_map.mp member
    obtain ⟨rfl, -⟩ := Opcode.try_some value
    have long := (opcodes_sizes opcode known).1
    exact ⟨_, rfl, by omega⟩

theorem mergeIp {p n i : Nat} (room : p + 2 * (i + n) ≤ r.len) (v : BitVec 64) :
    Reading.Moved exact k id (mergeIp b (k + p) n i v) (PT.mergeIp r p n i v) := by
  induction n generalizing i v with
  | zero => exact Reading.moved_pure rfl
  | succ n ih =>
    rw [PT.mergeIp, PT.mergeIp, Nat.add_assoc]
    exact (segment.load (by omega)).bind (ih (by omega) _)

/-- The payload of an IP packet: the part has it as well, or has no room for it and takes it for zero. -/
theorem getIpVal (p ipl : Nat) (lastIp : BitVec 64) :
    Reading.Moved (b.len = k + r.len) k (fun moved => (k + moved.1, moved.2)) (getIpVal b (k + p) ipl lastIp)
        (PT.getIpVal r p ipl lastIp) ∨
      k + r.len < b.len ∧ k + r.len < (PT.getIpVal b (k + p) ipl lastIp).value.1 ∧
        PT.getIpVal r p ipl lastIp = pure (p, 0) := by
  by_cases zero : ipl = 0
  · rw [PT.getIpVal, PT.getIpVal, if_pos zero, if_pos zero]
    exact .inl (Reading.moved_pure rfl)
  by_cases low : ipl < 4
  · rw [PT.getIpVal, PT.getIpVal, if_neg zero, if_neg zero, if_pos low, if_pos low]
    cases room : r.left p (ipl * 2) with
    | true =>
      have inside : p + 2 * (0 + ipl) ≤ r.len := by
        have := of_decide_eq_true room
        omega
      rw [segment.left room, if_pos rfl, if_pos rfl]
      exact .inl ((segment.mergeIp inside lastIp).bind (Reading.moved_pure (by simp [Nat.add_assoc])))
    | false =>
      cases room' : b.left (k + p) (ipl * 2) with
      | false => exact .inl (Reading.moved_pure rfl)
      | true =>
        have short := of_decide_eq_false room
        refine .inr ⟨longer room' room, ?_, rfl⟩
        simp only [if_true, Reading.value_bind, Reading.value_pure]
        omega
  · rw [PT.getIpVal, PT.getIpVal, if_neg zero, if_neg zero, if_neg low, if_neg low]
    cases room : r.left p 8 with
    | true =>
      rw [segment.left room, if_pos rfl, if_pos rfl]
      exact .inl ((segment.load (of_decide_eq_true room)).bind (Reading.moved_pure (by simp [Nat.add_assoc])))
    | false =>
      cases room' : b.left (k + p) 8 with
      | false => exact .inl (Reading.moved_pure rfl)
      | true =>
        have short := of_decide_eq_false room
        refine .inr ⟨longer room' room, ?_, rfl⟩
        simp only [if_true, Reading.value_bind, Reading.value_pure]
        omega

theorem tipPacket (p : Nat) (head : UInt8) (lastIp : BitVec 64) :
    Carried k b r p (tipPacket b (k + p) head lastIp) (PT.tipPacket r p head lastIp) := by
  unfold PT.tipPacket
  cases tipKind? head with
  | none => exact .pure rfl
  | some kind =>
    dsimp only
    rw [Nat.add_assoc]
    cases segment.getIpVal (p + 1) (head >>> 5).toNat lastIp with
    | inl moved => exact .inl (moved.bind (Reading.moved_pure rfl))
    | inr cut => exact .inr ⟨_, rfl, cut.1, .inl ⟨_, rfl, cut.2.1⟩⟩

theorem modePacket (p : Nat) (head : UInt8) : Carried k b r p (modePacket b (k + p) head) (PT.modePacket r p head) := by
  refine segment.guarded (fun _ room => ?_) fun pass found => ?_
  · have second : Reading.Moved (b.len = k + r.len) k id (b.deref (k + p + 1)) (r.deref (p + 1)) := by
      rw [Nat.add_assoc]
      exact segment.deref (by omega)
    refine .inl (second.bind ?_)
    rw [id_eq]
    split_ifs <;> exact Reading.moved_pure rfl
  · rw [Reading.value_bind] at found
    split_ifs at found <;> exact ⟨_, by rw [← Option.some.inj found]; rfl, Nat.le_refl _⟩

theorem tscPacket (p : Nat) (head : UInt8) : Carried k b r p (tscPacket b (k + p) head) (PT.tscPacket r p head) := by
  refine segment.guarded (fun _ room => ?_) fun pass found => ?_
  · rw [Nat.add_assoc]
    exact .inl ((segment.load (by omega)).bind (Reading.moved_pure rfl))
  · exact ⟨_, by rw [← Option.some.inj found]; rfl, Nat.le_refl _⟩

theorem mtcPacket (p : Nat) (head : UInt8) : Carried k b r p (mtcPacket b (k + p) head) (PT.mtcPacket r p head) := by
  refine segment.guarded (fun _ room => .pure rfl) fun pass found => ?_
  exact ⟨_, by rw [← Option.some.inj found]; rfl, Nat.le_refl _⟩

/-- The loop over the bytes of a CYC packet, which runs to the end of a part that cuts the packet. -/
theorem cycTail {p n m : Nat} (room : k + p + 1 + n = b.len) (room' : p + 1 + m = r.len) :
    Reading.Moved (b.len = k + r.len) k (k + ·) (cycTail b (k + p) n) (PT.cycTail r p m) ∨
      k + r.len < b.len ∧ k + r.len < (PT.cycTail b (k + p) n).value ∧ (PT.cycTail r p m).value = r.len + 1 := by
  have whole := segment.room
  induction m generalizing p n with
  | zero =>
    cases n with
    | zero => exact .inl ⟨rfl, fun _ => rfl⟩
    | succ n =>
      have forward := cycTail_forward b (k + p + 1) n
      refine .inr ⟨by omega, ?_, ?_⟩
      · rw [cycTail_succ]
        split_ifs <;> omega
      · have last : (PT.cycTail r p 0).value = p + 2 := rfl
        omega
  | succ m ih =>
    obtain ⟨n, rfl⟩ : ∃ l, n = l + 1 := ⟨n - 1, by omega⟩
    have second : Reading.Moved (b.len = k + r.len) k id (b.deref (k + p + 1)) (r.deref (p + 1)) := by
      rw [Nat.add_assoc]
      exact segment.deref (by omega)
    have next := ih (p := p + 1) (n := n) (by omega) (by omega)
    rw [← Nat.add_assoc] at next
    by_cases more : r.map (p + 1) &&& 1 ≠ 0
    · have more' : b.map (k + p + 1) &&& 1 ≠ 0 := by
        rw [Nat.add_assoc, segment.map (p + 1) (by omega)]
        exact more
      cases next with
      | inl moved =>
        refine .inl (second.bind ?_)
        rw [id_eq, Buffer.deref_value, if_pos more, if_pos more]
        exact moved
      | inr cut =>
        refine .inr ⟨cut.1, ?_, ?_⟩
        · rw [cycTail_succ, if_pos more']
          exact cut.2.1
        · rw [cycTail_succ, if_pos more]
          exact cut.2.2
    · refine .inl (second.bind ?_)
      rw [id_eq, Buffer.deref_value, if_neg more, if_neg more]
      exact Reading.moved_pure (by omega)

theorem cycPacket (inside : p < r.len) (head : UInt8) :
    Carried k b r p (cycPacket b (k + p) head) (PT.cycPacket r p head) := by
  have whole := segment.room
  have room : r.left p 1 = true := decide_eq_true (by omega)
  rw [PT.cycPacket, PT.cycPacket, segment.left room, room]
  split_ifs
  · cases segment.cycTail (p := p) (n := b.len - (k + p + 1)) (m := r.len - (p + 1)) (by omega) (by omega) with
    | inl moved => exact .inl (moved.bind (Reading.moved_pure rfl))
    | inr cut => exact .inr ⟨_, rfl, cut.1, .inl ⟨_, rfl, cut.2.1⟩⟩
  · exact .pure rfl
  · exact .pure rfl

/-- The pass in the part is the pass in the buffer, unless the part cuts the packet. -/
theorem packetPass_or_cut (inside : p < r.len) (lastIp : BitVec 64) :
    Reading.Moved (b.len = k + r.len) k (Pass.shift k) (packetPass b (k + p) lastIp) (packetPass r p lastIp) ∨
      (packetPass b (k + p) lastIp).value.Cut k b r p := by
  have head := segment.map p inside
  have even : Carried k b r p (evenPacket (k + p) (r.map p)) (evenPacket p (r.map p)) := by
    unfold evenPacket
    split_ifs <;> exact .pure rfl
  have extended := segment.extendedPacket inside
  rw [head] at extended
  have all : List.Forall₂ (Carried k b r p)
      [ PT.extendedPacket b (k + p) (r.map p), evenPacket (k + p) (r.map p), PT.tipPacket b (k + p) (r.map p) lastIp,
        PT.modePacket b (k + p) (r.map p), PT.tscPacket b (k + p) (r.map p), PT.mtcPacket b (k + p) (r.map p),
        PT.cycPacket b (k + p) (r.map p) ]
      [ PT.extendedPacket r p (r.map p), evenPacket p (r.map p), PT.tipPacket r p (r.map p) lastIp,
        PT.modePacket r p (r.map p), PT.tscPacket r p (r.map p), PT.mtcPacket r p (r.map p),
        PT.cycPacket r p (r.map p) ] :=
    .cons extended (.cons even (.cons (segment.tipPacket p _ lastIp) (.cons (segment.modePacket p _)
      (.cons (segment.tscPacket p _) (.cons (segment.mtcPacket p _) (.cons (segment.cycPacket inside _) .nil))))))
  cases Reading.firstOf_moved all with
  | inl moved =>
    refine .inl ((segment.deref inside).bind (moved.bind (Reading.moved_pure ?_)))
    cases (Reading.firstOf _).value <;> rfl
  | inr other =>
    obtain ⟨pass, found, cut⟩ := other
    refine .inr ?_
    have value : (packetPass b (k + p) lastIp).value = pass := by
      rw [packetPass, Reading.value_bind, Buffer.deref_value, head, Reading.value_bind, found]
      rfl
    rw [value]
    exact cut

end Buffer.Segment

end DevFuzz.PT
