import DevFuzz.Lib.Bytes
import DevFuzz.Lib.Reading

/-! # The PT decoder

`PTDecoder::decode` of `proxy/PTDecoder.h` as a machine.  The outer loop looks
for a PSB (`Phase.sync`), the inner loop decodes one packet per pass
(`Phase.packet`); `packetPass` is the body of the inner loop.  The state keeps
every index of `map` that was dereferenced and every call of `AFLMaybeLog`.
-/

namespace DevFuzz.PT

open DevFuzz.Lib DevFuzz.Lib.Bytes

/-! ## The buffer -/

/-- `map` and `len`.  What lies behind the buffer is part of the model: a read there returns
    some byte. -/
structure Buffer where
  map : Memory
  len : Nat

def Buffer.ofList (bytes : List UInt8) : Buffer := ⟨fun i => bytes.getD i 0, bytes.length⟩

/-- The dereference `map[i]`. -/
def Buffer.deref (b : Buffer) (i : Nat) : Reading UInt8 := ⟨b.map i, [i]⟩

@[simp] theorem Buffer.deref_value (b : Buffer) (i : Nat) : (b.deref i).value = b.map i := rfl

/-- A little-endian word of `n` bytes at `p`. -/
def Buffer.load (b : Buffer) (p n : Nat) : Reading Nat := ⟨loadLE b.map p n, List.range' p n⟩

/-- The macro `LEFT(n)`: `end - p >= n`. -/
def Buffer.left (b : Buffer) (p n : Nat) : Bool := decide (p + n ≤ b.len)

/-- The bytes at the given offsets from `p` are the given ones; `memcmp` may read them all. -/
def Buffer.compare (b : Buffer) (p : Nat) (expected : List (Nat × UInt8)) : Reading Bool :=
  ⟨expected.all fun entry => b.map (p + entry.1) == entry.2, expected.map fun entry => p + entry.1⟩

/-! ## Packets -/

/-- `psb[16]` -/
def psb : List UInt8 :=
  [0x02, 0x82, 0x02, 0x82, 0x02, 0x82, 0x02, 0x82, 0x02, 0x82, 0x02, 0x82, 0x02, 0x82, 0x02, 0x82]

/-- One test of the block for packets that start with the byte 2. -/
structure Opcode where
  /-- compared with `p[1]` -/
  code : UInt8
  /-- the argument of `LEFT`; 2 where only the enclosing test asks for it -/
  need : Nat
  /-- further bytes that are compared, by offset -/
  compared : List (Nat × UInt8)
  /-- offsets of the bytes that the branch reads as payload -/
  payload : List Nat
  advance : Nat

/-- The tests for `p[1]`, in the order of the source. -/
def opcodes : List Opcode :=
  [ ⟨0xa3, 8, [], [], 8⟩,                              -- long TNT
    ⟨0x43, 8, [], [2, 3, 4, 5, 6, 7], 8⟩,              -- PIP, through get_val
    ⟨0x03, 4, [(3, 0)], [], 4⟩,                        -- CBR
    ⟨0x83, 2, [], [], 2⟩,                              -- TraceStop
    ⟨0xf3, 8, [], [], 8⟩,                              -- OVF
    ⟨0x82, 16, (List.range 16).zip psb, [], 16⟩,       -- PSB
    ⟨0x23, 2, [], [], 2⟩,                              -- PSBEND
    ⟨0xc3, 11, [(2, 0x88)], [], 10⟩,                   -- MNT
    ⟨0x73, 7, [], [], 7⟩,                              -- TMA
    ⟨0xc8, 7, [], [], 7⟩ ]                             -- VMCS

/-- One test with its branch: the new `p` when the test succeeds. -/
def Opcode.try (b : Buffer) (p : Nat) (opcode : Opcode) : Reading (Option Nat) := do
  let code ← b.deref (p + 1)
  if code == opcode.code && b.left p opcode.need then
    if ← b.compare p opcode.compared then
      ⟨some (p + opcode.advance), opcode.payload.map (p + ·)⟩
    else pure none
  else pure none

/-- The packets whose header is looked up in a `switch (*p & 0x1f)`. -/
inductive TipKind where
  | tip
  | tipPge
  | tipPgd
  | fup
  deriving DecidableEq, Repr

def tipKind? (head : UInt8) : Option TipKind :=
  if head &&& 0x1f = 0x0d then some .tip
  else if head &&& 0x1f = 0x11 then some .tipPge
  else if head &&& 0x1f = 0x01 then some .tipPgd
  else if head &&& 0x1f = 0x1d then some .fup
  else none

/-- The loop of `get_ip_val`: 16-bit pieces replace the low bits of `v`, from piece `i` on. -/
def mergeIp (b : Buffer) (p : Nat) : Nat → Nat → BitVec 64 → Reading (BitVec 64)
  | 0, _, v => pure v
  | n + 1, i, v => do
    let piece ← b.load (p + 2 * i) 2
    let kept := v &&& ~~~((0xffff : BitVec 64) <<< (16 * i))
    mergeIp b p n (i + 1) (kept ||| (BitVec.ofNat 64 piece <<< (16 * i)))

/-- The sign extension from bit 47. -/
def signExtend48 (v : BitVec 64) : BitVec 64 := (v <<< 16).sshiftRight 16

/-- `get_ip_val`: the new `p` and the IP, which every branch also stores in `*last_ip`. -/
def getIpVal (b : Buffer) (p ipl : Nat) (lastIp : BitVec 64) : Reading (Nat × BitVec 64) :=
  if ipl = 0 then pure (p, 0)
  else if ipl < 4 then
    if b.left p (ipl * 2) then do
      let v ← mergeIp b p ipl 0 lastIp
      pure (p + 2 * ipl, signExtend48 v)
    else pure (p, 0)
  else if b.left p 8 then do
    let v ← b.load p 8
    pure (p + 8, BitVec.ofNat 64 v)
  else pure (p, 0)

/-- The `do ... while` loop of a CYC packet and the `p++` behind it, with `n` the number of
    bytes `LEFT` sees after the loop's own `p++`. -/
def cycTail (b : Buffer) (p : Nat) : Nat → Reading Nat
  | 0 => do
    let _ ← b.deref (p + 1)
    pure (p + 2)
  | n + 1 => do
    let next ← b.deref (p + 1)
    if next &&& 1 ≠ 0 then cycTail b (p + 1) n else pure (p + 2)

/-! ## One pass of the inner loop -/

/-- How a pass ends: `continue`, `continue` after a TIP-family packet, or `break`. -/
inductive Pass where
  | next (p : Nat)
  | tip (p : Nat) (ip : BitVec 64)
  | unknown
  deriving DecidableEq, Repr

/-- Packets that start with the byte 2. -/
def extendedPacket (b : Buffer) (p : Nat) (head : UInt8) : Reading (Option Pass) :=
  if head == 2 && b.left p 2 then do
    let found ← Reading.firstOf (opcodes.map (Opcode.try b p))
    pure (found.map Pass.next)
  else pure none

/-- PAD and short TNT. -/
def evenPacket (p : Nat) (head : UInt8) : Reading (Option Pass) :=
  if head &&& 1 = 0 then pure (some (.next (p + 1))) else pure none

/-- TIP, TIP.PGE, TIP.PGD and FUP. -/
def tipPacket (b : Buffer) (p : Nat) (head : UInt8) (lastIp : BitVec 64) : Reading (Option Pass) :=
  match tipKind? head with
  | some _ => do
    let (p, ip) ← getIpVal b (p + 1) (head >>> 5).toNat lastIp
    pure (some (.tip p ip))
  | none => pure none

def modePacket (b : Buffer) (p : Nat) (head : UInt8) : Reading (Option Pass) :=
  if head == 0x99 && b.left p 2 then do
    let mode ← b.deref (p + 1)
    if mode >>> 5 = 1 then pure (some (.next (p + 2)))
    else if mode >>> 5 = 0 then pure (some (.next (p + 2)))
    else pure none
  else pure none

def tscPacket (b : Buffer) (p : Nat) (head : UInt8) : Reading (Option Pass) :=
  if head == 0x19 && b.left p 8 then do
    let _ ← b.load (p + 1) 7
    pure (some (.next (p + 8)))
  else pure none

def mtcPacket (b : Buffer) (p : Nat) (head : UInt8) : Reading (Option Pass) :=
  if head == 0x59 && b.left p 2 then pure (some (.next (p + 2))) else pure none

def cycPacket (b : Buffer) (p : Nat) (head : UInt8) : Reading (Option Pass) :=
  if head &&& 3 = 3 then
    if head &&& 4 ≠ 0 && b.left p 1 then do
      let p ← cycTail b p (b.len - (p + 1))
      pure (some (.next p))
    else pure (some (.next (p + 1)))
  else pure none

def packetPass (b : Buffer) (p : Nat) (lastIp : BitVec 64) : Reading Pass := do
  let head ← b.deref p
  let found ← Reading.firstOf
    [ extendedPacket b p head, evenPacket p head, tipPacket b p head lastIp, modePacket b p head,
      tscPacket b p head, mtcPacket b p head, cycPacket b p head ]
  pure (found.getD .unknown)

/-! ## The machine -/

/-- Where control stands: at the head of the outer loop, at the head of the inner loop, or
    behind both. -/
inductive Phase where
  | sync
  | packet
  | done
  deriving DecidableEq, Repr

structure State where
  phase : Phase
  p : Nat
  lastIp : BitVec 64
  totalTips : Nat
  totalPsbs : Nat
  /-- every index of `map` dereferenced so far -/
  derefs : List Nat
  /-- every call of `AFLMaybeLog`, with the offset of the packet -/
  logged : List (Nat × BitVec 64)
  deriving DecidableEq, Repr

/-- The members of the decoder, which live on from one buffer to the next. -/
structure Decoder where
  totalTips : Nat := 0
  totalPsbs : Nat := 0
  deriving DecidableEq, Repr

def State.init (d : Decoder) : State where
  phase := .sync
  p := 0
  lastIp := 0
  totalTips := d.totalTips
  totalPsbs := d.totalPsbs
  derefs := []
  logged := []

/-- A PSB stands at `p`. -/
def psbAt (b : Buffer) (p : Nat) : Bool :=
  b.left p 16 && (b.compare p ((List.range 16).zip psb)).value

/-- The call `memmem(p, end - p, psb, 16)`, which reads no byte outside the range it is given. -/
def memmem (b : Buffer) (p : Nat) : Reading (Option Nat) :=
  ⟨(List.range' p (b.len - p)).find? (psbAt b), List.range' p (b.len - p)⟩

/-- One pass of the outer loop up to the inner one. -/
def stepSync (b : Buffer) (s : State) : State :=
  if s.p < b.len then
    let found := memmem b s.p
    match found.value with
    | some p =>
      { s with
        phase := .packet, p := p, totalPsbs := s.totalPsbs + 1, derefs := s.derefs ++ found.derefs }
    | none =>
      -- the message for a missing PSB prints `map[0]` to `map[3]`
      { s with
        phase := .done, p := b.len
        derefs := s.derefs ++ found.derefs ++ if s.totalPsbs = 0 then [0, 1, 2, 3] else [] }
  else { s with phase := .done }

/-- One pass of the inner loop. -/
def stepPacket (b : Buffer) (s : State) : State :=
  if s.p < b.len then
    let pass := packetPass b s.p s.lastIp
    match pass.value with
    | .next p => { s with p := p, derefs := s.derefs ++ pass.derefs }
    | .tip p ip =>
      { s with
        p := p, lastIp := ip, totalTips := s.totalTips + 1, derefs := s.derefs ++ pass.derefs
        logged := s.logged ++ [(s.p, ip)] }
    | .unknown =>
      -- the message for an unknown packet prints `p[0]` to `p[3]`
      { s with
        phase := .sync
        derefs := s.derefs ++ pass.derefs ++
          if s.totalTips = 0 ∧ s.totalPsbs ≤ 3 then [s.p, s.p + 1, s.p + 2, s.p + 3] else [] }
  else { s with phase := .sync }

def step (b : Buffer) (s : State) : State :=
  match s.phase with
  | .sync => stepSync b s
  | .packet => stepPacket b s
  | .done => s

/-- The whole call; `decode_done` says that this many steps always reach the end. -/
def decode (b : Buffer) (d : Decoder) : State := (step b)^[3 * b.len + 2] (State.init d)

end DevFuzz.PT
