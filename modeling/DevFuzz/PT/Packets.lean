import DevFuzz.PT.Decoder

/-! # The packet format

The packets of the Intel PT format with their encodings, independent of the
decoder.  Payload bytes are arbitrary; the structures carry what makes a byte a
short TNT packet and a byte string one CYC packet.
-/

namespace DevFuzz.PT

/-- A short TNT packet: an even byte that is neither PAD nor the extension byte. -/
structure ShortTnt where
  byte : UInt8
  even : byte &&& 1 = 0
  ne_pad : byte ≠ 0
  ne_ext : byte ≠ 2

/-- A CYC packet: the Exp bit of the first byte and bit 0 of the later ones announce one more
    byte. -/
structure CycBytes where
  first : UInt8
  more : List UInt8
  header : first &&& 3 = 3
  delimited : if first &&& 4 = 0 then more = []
    else ∃ init last, more = init ++ [last] ∧ (∀ byte ∈ init, byte &&& 1 ≠ 0) ∧ last &&& 1 = 0

/-- The values of the field IPBytes that the format defines. -/
inductive IpBytes where
  | zero
  | one
  | two
  | three
  | four
  | six
  deriving DecidableEq, Repr

def IpBytes.field : IpBytes → UInt8
  | .zero => 0
  | .one => 1
  | .two => 2
  | .three => 3
  | .four => 4
  | .six => 6

/-- The number of payload bytes. -/
def IpBytes.payload : IpBytes → Nat
  | .zero => 0
  | .one => 2
  | .two => 4
  | .three => 6
  | .four => 6
  | .six => 8

def TipKind.opcode : TipKind → UInt8
  | .tip => 0x0d
  | .tipPge => 0x11
  | .tipPgd => 0x01
  | .fup => 0x1d

inductive Packet where
  | pad
  | shortTnt (tnt : ShortTnt)
  | longTnt (payload : Vector UInt8 6)
  | pip (payload : Vector UInt8 6)
  | tsc (payload : Vector UInt8 7)
  | cbr (ratio reserved : UInt8)
  | traceStop
  | psbend
  | ovf
  | mode (byte : UInt8)
  | mtc (byte : UInt8)
  | tma (payload : Vector UInt8 5)
  | vmcs (payload : Vector UInt8 5)
  | mnt (payload : Vector UInt8 8)
  | psb
  | cyc (bytes : CycBytes)
  | tip (kind : TipKind) (ipBytes : IpBytes) (payload : Vector UInt8 ipBytes.payload)

/-- The header byte of a TIP-family packet. -/
def tipHeader (kind : TipKind) (ipBytes : IpBytes) : UInt8 := kind.opcode ||| (ipBytes.field <<< 5)

def Packet.encode : Packet → List UInt8
  | .pad => [0]
  | .shortTnt tnt => [tnt.byte]
  | .longTnt payload => 0x02 :: 0xa3 :: payload.toList
  | .pip payload => 0x02 :: 0x43 :: payload.toList
  | .tsc payload => 0x19 :: payload.toList
  | .cbr ratio reserved => [0x02, 0x03, ratio, reserved]
  | .traceStop => [0x02, 0x83]
  | .psbend => [0x02, 0x23]
  | .ovf => [0x02, 0xf3]
  | .mode byte => [0x99, byte]
  | .mtc byte => [0x59, byte]
  | .tma payload => 0x02 :: 0x73 :: payload.toList
  | .vmcs payload => 0x02 :: 0xc8 :: payload.toList
  | .mnt payload => 0x02 :: 0xc3 :: 0x88 :: payload.toList
  | .psb => PT.psb
  | .cyc bytes => bytes.first :: bytes.more
  | .tip kind ipBytes payload => tipHeader kind ipBytes :: payload.toList

def Packet.size (packet : Packet) : Nat := packet.encode.length

def encodeAll (packets : List Packet) : List UInt8 := packets.flatMap Packet.encode

/-- The offset of the packet if it is of the TIP family. -/
def Packet.tips (offset : Nat) : Packet → List Nat
  | .tip _ _ _ => [offset]
  | _ => []

/-- The offsets of the TIP-family packets of a stream that starts at `offset`. -/
def tipOffsets : Nat → List Packet → List Nat
  | _, [] => []
  | offset, packet :: packets => packet.tips offset ++ tipOffsets (offset + packet.size) packets

/-! ## Bytes in a buffer -/

/-- The buffer holds these bytes at `p`. -/
def Buffer.Holds (b : Buffer) (p : Nat) (bytes : List UInt8) : Prop :=
  p + bytes.length ≤ b.len ∧ ∀ i (_ : i < bytes.length), b.map (p + i) = bytes[i]

theorem Buffer.holds_cons {b : Buffer} {p : Nat} {byte : UInt8} {bytes : List UInt8} :
    b.Holds p (byte :: bytes) ↔ p < b.len ∧ b.map p = byte ∧ b.Holds (p + 1) bytes := by
  constructor
  · rintro ⟨room, same⟩
    rw [List.length_cons] at room
    refine ⟨by omega, same 0 (by simp), by omega, ?_⟩
    intro i bound
    have := same (i + 1) (by simpa using bound)
    simpa [Nat.add_right_comm, Nat.add_assoc] using this
  · rintro ⟨inside, head, room, same⟩
    refine ⟨by rw [List.length_cons]; omega, ?_⟩
    intro i bound
    cases i with
    | zero => exact head
    | succ i =>
      have := same i (by simpa using bound)
      simpa [Nat.add_right_comm, Nat.add_assoc] using this

theorem Buffer.holds_append {b : Buffer} {p : Nat} {left right : List UInt8} :
    b.Holds p (left ++ right) ↔ b.Holds p left ∧ b.Holds (p + left.length) right := by
  induction left generalizing p with
  | nil =>
    simp only [List.nil_append, List.length_nil, Nat.add_zero]
    refine ⟨fun right => ⟨⟨by have := right.1; simp; omega, by simp⟩, right⟩, And.right⟩
  | cons byte left ih =>
    simp only [List.cons_append, Buffer.holds_cons, ih, List.length_cons]
    rw [show p + (left.length + 1) = p + 1 + left.length by omega]
    tauto

theorem Buffer.holds_ofList (bytes : List UInt8) : (Buffer.ofList bytes).Holds 0 bytes := by
  refine ⟨by simp [Buffer.ofList], ?_⟩
  intro i bound
  simp [Buffer.ofList, bound]

end DevFuzz.PT
