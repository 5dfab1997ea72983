import DevFuzz.PT.Framing
import DevFuzz.PT.Realign
import Mathlib.Algebra.Order.BigOperators.Group.List

/-! # A trace in several records

`check_buffer` of `proxy/pt-runner.cpp` decodes every AUX record with a decoder of its
own, which looks for a PSB first and starts with the last IP zero.  Where the kernel
cuts the trace is therefore seen in the reported IPs, unless every record resumes the trace
and none ends with an MNT packet whose bytes are reported (`sameCoverage_resumes`).
-/

namespace DevFuzz.PT

open DevFuzz.Lib

/-- What `check_buffer` reports for an AUX record. -/
def auxIps (record : List UInt8) : List (BitVec 64) :=
  if record.length ≠ 0 then (decode (.ofList record) {}).logged.map Prod.snd else []

theorem auxIps_eq (record : List UInt8) : auxIps record = (decode (.ofList record) {}).logged.map Prod.snd := by
  unfold auxIps
  split_ifs with nonempty
  · rfl
  · have empty : record = [] := List.length_eq_zero_iff.mp (Decidable.not_not.mp nonempty)
    rw [empty, decode_of_missing rfl]
    rfl

/-- A stream of packets that starts with a PSB, cut at packet boundaries. -/
structure CutStream where
  records : List (List UInt8)
  starts : List Nat
  psbFirst : psbAt (.ofList records.flatten) 0 = true
  packets : (Buffer.ofList records.flatten).Packets 0 starts records.flatten.length
  boundaries : ∀ n, (records.take n).flatten.length ∈ starts ∨
    (records.take n).flatten.length = records.flatten.length

/-- A record, with the offsets of its packets and the last IP with which a decode of the whole stream comes
    to it. -/
structure Piece where
  bytes : List UInt8
  starts : List Nat
  lastIp : BitVec 64

def Piece.buffer (piece : Piece) : Buffer := .ofList piece.bytes

def piecesFrom (b : Buffer) : Nat → BitVec 64 → List Nat → List (List UInt8) → List Piece
  | _, _, _, [] => []
  | k, lastIp, starts, record :: records =>
    let own := starts.takeWhile (· < k + record.length)
    ⟨record, own.map (· - k), lastIp⟩ ::
      piecesFrom b (k + record.length) (ipAfter b lastIp own) (starts.dropWhile (· < k + record.length)) records

namespace CutStream

variable (c : CutStream)

def whole : Buffer := .ofList c.records.flatten

def pieces : List Piece := piecesFrom c.whole 0 0 c.starts c.records

/-- The records report what the stream reports as one record. -/
def SameCoverage : Prop := c.records.flatMap auxIps = auxIps c.records.flatten

end CutStream

/-! ## One record -/

/-- What is not dropped itself stands behind what is left. -/
theorem dropWhile_concat {α : Type} {l : List α} {a : α} {test : α → Bool} (stays : test a = false) :
    (l ++ [a]).dropWhile test = l.dropWhile test ++ [a] := by
  induction l with
  | nil => simp [stays]
  | cons head l ih =>
    rw [List.cons_append, List.dropWhile_cons, List.dropWhile_cons]
    split_ifs
    · exact ih
    · rfl

namespace Piece

variable {piece : Piece}

/-- The packets that the search for a PSB passes over. -/
def skipped (piece : Piece) : List Nat :=
  match (memmem piece.buffer 0).value with
  | some q => piece.starts.takeWhile (· < q)
  | none => piece.starts

def decoded (piece : Piece) : List Nat :=
  match (memmem piece.buffer 0).value with
  | some q => piece.starts.dropWhile (· < q)
  | none => []

/-- The record reports its packets as the whole stream does: no IP packet stands before its first PSB, and the
    first IP packet gives the same IP when the last IP is zero. -/
structure Resumes (piece : Piece) : Prop where
  synchronised : ∀ p ∈ piece.skipped, isTip piece.buffer p = false
  lastIp : ∀ p, piece.starts.find? (isTip piece.buffer) = some p →
    ipAt piece.buffer p piece.lastIp = ipAt piece.buffer p 0

/-- If the record ends with an MNT packet and the decode comes to it, no packet that its payload is read as is
    logged.  The decoder asks for one byte more than an MNT packet has before the record ends, and takes its first
    three bytes for packets of one byte each. -/
def Quiet (piece : Piece) : Prop :=
  (memmem piece.buffer 0).value.isSome → ∀ p, piece.starts.getLast? = some p → p + 10 = piece.buffer.len →
    piece.buffer.map p = 2 → ∀ strays q, piece.buffer.Packets (p + 3) strays q → ∀ i ∈ strays, isTip piece.buffer i = false

/-- How the packets of a record stand in it: they are the packets of the record alone, or the last one is an MNT
    packet. -/
inductive Stands (piece : Piece) : Prop where
  | alone (packets : piece.buffer.Packets 0 piece.starts piece.buffer.len)
  | mnt {before : List Nat} {p : Nat} (starts : piece.starts = before ++ [p])
      (packets : piece.buffer.Packets 0 before p) (ends : p + 10 = piece.buffer.len) (head : piece.buffer.map p = 2)
      (code : piece.buffer.map (p + 1) = 0xc3) (sub : piece.buffer.map (p + 2) = 0x88)

theorem skipped_append_decoded (piece : Piece) : piece.skipped ++ piece.decoded = piece.starts := by
  unfold skipped decoded
  cases (memmem piece.buffer 0).value with
  | none => exact List.append_nil _
  | some q => exact List.takeWhile_append_dropWhile

theorem resumes_iff : piece.Resumes ↔ ips piece.buffer 0 piece.decoded = ips piece.buffer piece.lastIp piece.starts := by
  rw [← skipped_append_decoded, ips_eq_append_iff, skipped_append_decoded]
  exact ⟨fun ⟨synchronised, lastIp⟩ => ⟨synchronised, lastIp⟩, fun ⟨synchronised, lastIp⟩ => ⟨synchronised, lastIp⟩⟩

theorem length_decoded_le :
    (ips piece.buffer 0 piece.decoded).length ≤ (ips piece.buffer piece.lastIp piece.starts).length := by
  rw [length_ips, length_ips, ← skipped_append_decoded, List.countP_append]
  exact Nat.le_add_left _ _

/-- Without room for it, an MNT packet is read as three packets of one byte and then on. -/
theorem mnt_packets {b : Buffer} {p : Nat} (ends : p + 10 = b.len) (head : b.map p = 2) (code : b.map (p + 1) = 0xc3)
    (sub : b.map (p + 2) = 0x88) :
    b.Packets p [p, p + 1, p + 2] (p + 3) ∧ ∀ i ∈ [p, p + 1, p + 2], isTip b i = false := by
  have none : (extendedPacket b p (b.map p)).value = none := by
    have short : b.left p 11 = false := decide_eq_false (by omega)
    rw [head, extendedPacket_value (show ⟨0xc3, 11, [(2, 0x88)], [], 10⟩ ∈ opcodes by simp [opcodes]) (by omega) code,
      short]
    rfl
  have first := packetPass_of_even (by rw [head]; decide) none 0
  have second := packetPass_of_oneByte (b := b) (p := p + 1) (by rw [code]; decide) 0
  have third := packetPass_of_oneByte (b := b) (p := p + 2) (by rw [sub]; decide) 0
  constructor
  · exact (Buffer.Packets.single (by omega) first).append
      ((Buffer.Packets.single (by omega) second).append (.single (by omega) third))
  · simp [isTip_of_next first, isTip_of_next second, isTip_of_next third]

/-- A record reports the packets from its first PSB on, and then what it finds in the payload of an MNT packet. -/
theorem auxIps (stands : piece.Stands) :
    ∃ strays, auxIps piece.bytes = ips piece.buffer 0 piece.decoded ++ strays ∧ (strays = [] ↔ piece.Quiet) := by
  rw [auxIps_eq, ← buffer]
  cases found : (memmem piece.buffer 0).value with
  | none =>
    refine ⟨[], ?_, iff_of_true rfl fun here => ?_⟩
    · rw [decode_of_missing found, decoded, found]
      rfl
    · rw [found] at here
      cases here
  | some q =>
    obtain ⟨-, -, here⟩ := memmem_some found
    have room := (psbAt_iff.mp here).1
    have decoded : piece.decoded = piece.starts.dropWhile (· < q) := by rw [decoded, found]
    cases stands with
    | alone packets =>
      obtain ⟨starts, packets', same⟩ := packets.realign (Nat.zero_le q) here (by omega) fun inside => by omega
      refine ⟨[], ?_, iff_of_true rfl ?_⟩
      · rw [decode_of_packets found packets', same, decoded, List.append_nil]
      · -- an MNT packet of the record alone has another byte behind it
        intro _ p last ends head
        have := (mnt_of_stop (ends ▸ packets.last last) head).1
        omega
    | @mnt before p starts packets ends head code sub =>
      -- the decode comes to the MNT packet as the stream does, and goes on behind its first three bytes
      obtain ⟨way, packets', same⟩ := packets.realign (Nat.zero_le q) here (by omega)
        fun _ => ⟨head, by rw [code]; decide⟩
      obtain ⟨more, silent⟩ := mnt_packets ends head code sub
      have inside : 0 < piece.buffer.len := by omega
      have synced := (Transition.synced (s := State.init {}) rfl inside found).eq_step
      obtain ⟨t, further, phase, position, logged⟩ := (packets'.append more).run (s := step piece.buffer (State.init {}))
        (by rw [synced]) (by rw [synced])
      have reached := (Reaches.single (State.init {})).trans further
      have reported : t.logged.map Prod.snd = ips piece.buffer 0 piece.decoded := by
        have quiet : ∀ i ∈ [p], isTip piece.buffer i = false := by simpa using silent p (by simp)
        rw [logged, synced, decoded, starts, dropWhile_concat (by simp; omega), ips_append, ips_append,
          ips_eq_nil_iff.mpr silent, ips_eq_nil_iff.mpr quiet, same]
        rfl
      refine ⟨_, (decode_split reached).trans (by rw [reported]), ?_⟩
      rw [strays_eq_nil_iff reached phase (by omega), position]
      have last : piece.starts.getLast? = some p := by rw [starts]; simp
      constructor
      · intro quiet _ p' last' _ _
        obtain rfl := Option.some.inj (last.symm.trans last')
        exact quiet
      · intro quiet
        exact quiet (by rw [found]; rfl) p last ends head

end Piece

/-! ## All records -/

/-- The records `records` stand in the buffer from `k` on, and are cut where packets end. -/
structure CutAt (b : Buffer) (k : Nat) (starts : List Nat) (records : List (List UInt8)) : Prop where
  holds : b.Holds k records.flatten
  ends : k + records.flatten.length = b.len
  packets : b.Packets k starts b.len
  boundaries : ∀ n, k + (records.take n).flatten.length ∈ starts ∨ k + (records.take n).flatten.length = b.len

namespace CutAt

variable {b : Buffer} {k : Nat} {starts : List Nat} {record : List UInt8} {records : List (List UInt8)}

theorem boundary (cut : CutAt b k starts (record :: records)) : k + record.length ∈ starts ∨ k + record.length = b.len := by
  simpa using cut.boundaries 1

theorem segment (cut : CutAt b k starts (record :: records)) : Buffer.Segment k b (.ofList record) := by
  obtain ⟨room, bytes⟩ := cut.holds
  rw [List.flatten_cons, List.length_append] at room
  refine ⟨by simp only [Buffer.ofList]; omega, fun i inside => ?_⟩
  have inside : i < record.length := inside
  rw [bytes i (by simp; omega)]
  simp [Buffer.ofList, inside]

theorem tail (cut : CutAt b k starts (record :: records)) :
    CutAt b (k + record.length) (starts.dropWhile (· < k + record.length)) records where
  holds := by
    obtain ⟨room, bytes⟩ := cut.holds
    rw [List.flatten_cons, List.length_append] at room
    refine ⟨by omega, fun i inside => ?_⟩
    rw [Nat.add_assoc, bytes (record.length + i) (by rw [List.flatten_cons, List.length_append]; omega)]
    simp
  ends := by
    rw [← cut.ends, List.flatten_cons, List.length_append, Nat.add_assoc]
  packets := (cut.packets.split (Nat.le_add_right _ _) cut.boundary).2
  boundaries n := by
    have later := cut.boundaries (n + 1)
    rw [List.take_succ_cons, List.flatten_cons, List.length_append, ← Nat.add_assoc] at later
    refine later.imp_left fun member => ?_
    rw [← starts.takeWhile_append_dropWhile (p := (· < k + record.length))] at member
    refine (List.mem_append.mp member).resolve_left fun early => ?_
    have := List.mem_takeWhile_imp early
    rw [decide_eq_true_eq] at this
    omega

/-- The packets of the first record, and what the whole stream reports for them. -/
theorem first (cut : CutAt b k starts (record :: records)) (lastIp : BitVec 64) :
    let piece : Piece := ⟨record, (starts.takeWhile (· < k + record.length)).map (· - k), lastIp⟩
    piece.Stands ∧ ips piece.buffer lastIp piece.starts = ips b lastIp (starts.takeWhile (· < k + record.length)) := by
  have own := (cut.packets.split (Nat.le_add_right _ _) cut.boundary).1
  have segment := cut.segment
  generalize starts.takeWhile (· < k + record.length) = starts at own
  by_cases mnt : ∃ p ∈ starts, mntAt b p ∧ p + 10 = k + record.length
  · -- an MNT packet that ends with the record is the last one
    obtain ⟨p, member, ⟨head, pass⟩, ends⟩ := mnt
    have low := own.le_of_mem p member
    have room : k + record.length ≤ b.len := segment.room
    obtain ⟨before, rfl, packets, early⟩ := own.concat member (by omega) (ends ▸ pass)
    obtain ⟨packets, reported⟩ := packets.part segment (Nat.le_refl k) (by simp only [Buffer.ofList]; omega)
      fun i member _ => by
        have := early i member
        simp only [Buffer.ofList]
        omega
    rw [Nat.sub_self] at packets
    have byte : ∀ i < 10, (Buffer.ofList record).map (p - k + i) = b.map (p + i) := by
      intro i inside
      rw [← segment.map _ (by simp only [Buffer.ofList]; omega), ← Nat.add_assoc, Nat.add_sub_of_le low]
    obtain ⟨-, code, sub⟩ := mnt_of_stop (by rw [pass]; rfl) head
    have ends' : p - k + 10 = (Buffer.ofList record).len := by simp only [Buffer.ofList]; omega
    have head' := (byte 0 (by decide)).trans head
    have code' := (byte 1 (by decide)).trans code
    have sub' := (byte 2 (by decide)).trans sub
    refine ⟨.mnt List.map_append packets ends' head' code' sub', ?_⟩
    have silent : ∀ i ∈ [p - k], isTip (Buffer.ofList record) i = false := by
      simpa using (Piece.mnt_packets ends' head' code' sub').2 (p - k) (by simp)
    have silent' : ∀ i ∈ [p], isTip b i = false := by simpa using isTip_of_next pass
    rw [Piece.buffer, List.map_append, ips_append, ips_append, reported lastIp, ips_eq_nil_iff.mpr silent']
    exact congrArg _ (ips_eq_nil_iff.mpr silent)
  · obtain ⟨packets, reported⟩ := own.part segment (Nat.le_refl k) (Nat.le_refl _)
      fun p member here ends => mnt ⟨p, member, here, ends⟩
    rw [Nat.sub_self, Nat.add_sub_cancel_left] at packets
    exact ⟨.alone packets, reported lastIp⟩

/-- The packets of the stream are those of its records. -/
theorem piecesFrom (cut : CutAt b k starts records) (lastIp : BitVec 64) :
    (∀ piece ∈ piecesFrom b k lastIp starts records, piece.Stands) ∧
      (PT.piecesFrom b k lastIp starts records).flatMap (fun piece => ips piece.buffer piece.lastIp piece.starts) =
        ips b lastIp starts ∧
      (PT.piecesFrom b k lastIp starts records).map Piece.bytes = records := by
  induction records generalizing k lastIp starts with
  | nil =>
    have packets := cut.packets
    rw [← cut.ends] at packets
    rw [packets.eq_nil]
    exact ⟨nofun, rfl, rfl⟩
  | cons record records ih =>
    -- the first record takes the packets up to its end; the others go on with the IP after them
    obtain ⟨stands, reported⟩ := cut.first lastIp
    obtain ⟨stands', reported', records'⟩ := ih cut.tail (ipAfter b lastIp (starts.takeWhile (· < k + record.length)))
    rw [PT.piecesFrom]
    refine ⟨List.forall_mem_cons.mpr ⟨stands, stands'⟩, ?_, ?_⟩
    · rw [List.flatMap_cons, reported', reported, ← ips_append, List.takeWhile_append_dropWhile]
    · rw [List.map_cons, records']

end CutAt

/-- Lists none of which is longer than its counterpart agree if they agree one behind the other. -/
theorem flatMap_eq_iff {α β : Type} {f g : α → List β} {l : List α} (shorter : ∀ a ∈ l, (f a).length ≤ (g a).length) :
    l.flatMap f = l.flatMap g ↔ ∀ a ∈ l, f a = g a := by
  refine ⟨fun same => ?_, List.flatMap_congr⟩
  induction l with
  | nil => exact nofun
  | cons a l ih =>
    rw [List.forall_mem_cons] at shorter ⊢
    rw [List.flatMap_cons, List.flatMap_cons] at same
    have lengths := congrArg List.length same
    rw [List.length_append, List.length_append] at lengths
    -- neither part may be shorter, so the lists part at the same place
    have later : (l.flatMap f).length ≤ (l.flatMap g).length := by
      rw [List.length_flatMap, List.length_flatMap]
      exact List.sum_le_sum shorter.2
    have first := shorter.1
    obtain ⟨here, rest⟩ := List.append_inj same (by omega)
    exact ⟨here, ih shorter.2 rest⟩

namespace CutStream

variable (c : CutStream)

theorem cutAt : CutAt c.whole 0 c.starts c.records where
  holds := Buffer.holds_ofList _
  ends := Nat.zero_add _
  packets := c.packets
  boundaries n := by
    rw [Nat.zero_add]
    exact c.boundaries n

/-- The records report the IPs of the whole stream if every one of them resumes and is quiet.  When they do, either
    both hold for all records, or each fails for one: what is missing from one record may then be what the payload
    of an MNT packet is taken for in another. -/
theorem sameCoverage_resumes :
    ((∀ piece ∈ c.pieces, piece.Resumes ∧ piece.Quiet) → c.SameCoverage) ∧
      (c.SameCoverage → ((∀ piece ∈ c.pieces, piece.Resumes) ↔ ∀ piece ∈ c.pieces, piece.Quiet)) := by
  obtain ⟨stands, reported, records⟩ := c.cutAt.piecesFrom 0
  rw [← CutStream.pieces] at stands reported records
  have whole : auxIps c.records.flatten = ips c.whole 0 c.starts := by
    rw [auxIps_eq]
    exact decode_of_packets (memmem_zero c.psbFirst) c.packets {}
  have cut : c.records.flatMap auxIps = c.pieces.flatMap fun piece => auxIps piece.bytes := by
    conv_lhs => rw [← records]
    exact List.flatMap_map _ _ _
  rw [SameCoverage, whole, cut, ← reported]
  refine ⟨fun good => List.flatMap_congr fun piece member => ?_, fun same => ⟨fun resumes => ?_, fun quiet => ?_⟩⟩
  · obtain ⟨strays, all, nothing⟩ := piece.auxIps (stands piece member)
    rw [all, nothing.mpr (good piece member).2, List.append_nil]
    exact Piece.resumes_iff.mp (good piece member).1
  · -- no record reports less than its packets
    have each := (flatMap_eq_iff fun piece member => ?_).mp same.symm
    · intro piece member
      obtain ⟨strays, all, nothing⟩ := piece.auxIps (stands piece member)
      have equal := each piece member
      rw [all, Piece.resumes_iff.mp (resumes piece member)] at equal
      exact nothing.mp (List.self_eq_append_right.mp equal)
    · obtain ⟨strays, all, -⟩ := piece.auxIps (stands piece member)
      rw [all, Piece.resumes_iff.mp (resumes piece member), List.length_append]
      exact Nat.le_add_right _ _
  · -- no record reports more than its packets
    have each : ∀ piece ∈ c.pieces, auxIps piece.bytes = ips piece.buffer 0 piece.decoded := by
      intro piece member
      obtain ⟨strays, all, nothing⟩ := piece.auxIps (stands piece member)
      rw [all, nothing.mpr (quiet piece member), List.append_nil]
    have equal := (flatMap_eq_iff fun piece member => by rw [each piece member]; exact piece.length_decoded_le).mp same
    exact fun piece member => Piece.resumes_iff.mpr ((each piece member).symm.trans (equal piece member))

end CutStream

/-- The first record ends with an MNT packet whose last byte can be taken for a TIP without an IP, and the second
    is such a TIP. -/
def strayTip : CutStream where
  records := [psb ++ [0x02, 0xc3, 0x88, 0, 0, 0, 0, 0, 0, 0x0d], [0x0d]]
  starts := [0, 16, 26]
  psbFirst := by decide +kernel
  packets := .cons (by decide) (by decide +kernel) (.cons (by decide) (by decide +kernel)
    (.cons (by decide) (by decide +kernel) (.nil _)))
  boundaries
    | 0 => by decide
    | 1 => by decide
    | n + 2 => by simp

/-- The IP of the second record, which is not reported, is the one that the first reports too much. -/
theorem sameCoverage_strayTip : strayTip.SameCoverage ∧ ¬ ∀ piece ∈ strayTip.pieces, piece.Resumes := by
  constructor
  · unfold CutStream.SameCoverage
    decide +kernel
  · intro all
    have second := (all _ (.tail _ (.head _))).synchronised 0 (by decide +kernel)
    exact absurd second (by decide +kernel)

/-- The second record has no PSB. -/
def withoutPsb : CutStream where
  records := [fullTip, [0x2d, 0xef, 0xbe]]
  starts := [0, 16, 23]
  psbFirst := by decide +kernel
  packets := .cons (by decide) (by decide +kernel) (.cons (by decide) (by decide +kernel)
    (.cons (by decide) (by decide +kernel) (.nil _)))
  boundaries
    | 0 => by decide
    | 1 => by decide
    | n + 2 => by simp

/-- The second record has one, but its IP packet goes on from the IP of the first record. -/
def withPsb : CutStream where
  records := [fullTip, shortTip]
  starts := [0, 16, 23, 39]
  psbFirst := by decide +kernel
  packets := .cons (by decide) (by decide +kernel) (.cons (by decide) (by decide +kernel)
    (.cons (by decide) (by decide +kernel) (.cons (by decide) (by decide +kernel) (.nil _))))
  boundaries
    | 0 => by decide
    | 1 => by decide
    | n + 2 => by simp

/-- In neither cut is the second IP reported: nothing is, or its low bytes alone are. -/
theorem not_sameCoverage : ¬ withoutPsb.SameCoverage ∧ ¬ withPsb.SameCoverage := by
  unfold CutStream.SameCoverage
  constructor
  · decide +kernel
  · decide +kernel

end DevFuzz.PT
