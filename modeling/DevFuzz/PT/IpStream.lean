import DevFuzz.PT.Packets
import DevFuzz.PT.Resync

/-! # Compressed IPs

An IP packet carries the low bytes of its IP; the rest comes from the IP before it.
`get_ip_val` undoes this for canonical addresses, one packet after the other
(`getIpVals_encode`).
-/

namespace DevFuzz.PT

open DevFuzz.Lib DevFuzz.Lib.Bytes

/-! ## The encoder -/

/-- Sign-extended from bit 47. -/
def Canonical (ip : BitVec 64) : Prop := ∀ j, 47 ≤ j → j < 64 → ip.getLsbD j = ip.getLsbD 47

/-- The values of IPBytes with which an IP may be sent after `prev`. -/
def IpBytes.Admits (prev ip : BitVec 64) : IpBytes → Prop
  | .one => prev >>> 16 = ip >>> 16
  | .two => prev >>> 32 = ip >>> 32
  | .three | .six => True
  | .zero | .four => False

/-- The payload of an IP packet. -/
def IpBytes.encode (n : IpBytes) (ip : BitVec 64) : List UInt8 := (List.range n.payload).map (byteOf ip.toNat)

/-- Each address is canonical and sent in an admissible way, the first one after `prev`. -/
def Compressed : BitVec 64 → List (IpBytes × BitVec 64) → Prop
  | _, [] => True
  | prev, (n, ip) :: rest => Canonical ip ∧ n.Admits prev ip ∧ Compressed ip rest

structure IpStream where
  entries : List (IpBytes × BitVec 64)
  compressed : Compressed 0 entries

def encodeIps (entries : List (IpBytes × BitVec 64)) : List UInt8 := entries.flatMap fun entry => entry.1.encode entry.2

/-! ## The decoder -/

/-- Successive calls of `get_ip_val`: the cursor and the IP after each. -/
def getIpVals (b : Buffer) : Nat → BitVec 64 → List IpBytes → List (Nat × BitVec 64)
  | _, _, [] => []
  | p, lastIp, n :: rest =>
    let call := (getIpVal b p n.field.toNat lastIp).value
    call :: getIpVals b call.1 call.2 rest

/-- The IPs, with the cursor behind the payload of each. -/
def withCursors : Nat → List (IpBytes × BitVec 64) → List (Nat × BitVec 64)
  | _, [] => []
  | p, (n, ip) :: rest => (p + n.payload, ip) :: withCursors (p + n.payload) rest

section

variable {b : Buffer} {p : Nat} {prev ip : BitVec 64}

theorem Buffer.load_of_holds {width k n : Nat} (held : b.Holds p ((List.range width).map (byteOf ip.toNat)))
    (inside : k + n ≤ width) : (b.load (p + k) n).value = ip.toNat / 256 ^ k % 256 ^ n := by
  refine loadLE_of_bytes fun index low => ?_
  have byte := held.2 (k + index) (by simp; omega)
  rw [Nat.add_assoc, byte]
  simp

theorem signExtend48_of_canonical (canonical : Canonical ip) : signExtend48 ip = ip := by
  apply BitVec.eq_of_getLsbD_eq
  intro j inside
  rw [signExtend48_getLsbD ip inside]
  split_ifs with low
  · rfl
  · exact (canonical j (by omega) inside).symm

/-- One to three pieces of 16 bits, with the bits above them from the last IP. -/
theorem getIpVal_pieces {n : Nat} (pos : 0 < n) (few : n < 4)
    (held : b.Holds p ((List.range (2 * n)).map (byteOf ip.toNat))) (canonical : Canonical ip)
    (kept : ∀ j, 16 * n ≤ j → j < 48 → prev.getLsbD j = ip.getLsbD j) :
    (getIpVal b p n prev).value = (p + 2 * n, ip) := by
  have room : b.left p (n * 2) = true := by
    have := held.1
    rw [List.length_map, List.length_range] at this
    exact decide_eq_true (by omega)
  have merged : signExtend48 (mergeIp b p n 0 prev).value = ip := by
    refine Eq.trans ?_ (signExtend48_of_canonical canonical)
    rw [signExtend48_eq_iff]
    intro j low
    rw [mergeIp_getLsbD b p n 0 prev (by omega)]
    split_ifs with replaced
    · have piece : (b.load (p + 2 * (j / 16)) 2).value = ip.toNat / 2 ^ (16 * (j / 16)) % 2 ^ 16 := by
        rw [Buffer.load_of_holds held (by omega), show 256 = 2 ^ 8 by rfl, ← pow_mul, ← pow_mul]
        congr 3
        omega
      rw [piece, Nat.testBit_mod_two_pow, Nat.testBit_div_two_pow, BitVec.getLsbD]
      have low16 : j % 16 < 16 := Nat.mod_lt _ (by decide)
      simp [low16, Nat.mod_add_div]
    · exact kept j (by omega) low
  rw [getIpVal, if_neg (by omega), if_pos few, if_pos room]
  simp only [Reading.value_bind, Reading.value_pure, merged]

theorem getIpVal_full (held : b.Holds p ((List.range 8).map (byteOf ip.toNat))) :
    (getIpVal b p 6 prev).value = (p + 8, ip) := by
  have room : b.left p 8 = true := by
    have := held.1
    rw [List.length_map, List.length_range] at this
    exact decide_eq_true this
  have whole : (b.load p 8).value = ip.toNat := by
    have loaded := Buffer.load_of_holds (k := 0) (n := 8) held (by decide)
    have small : ip.toNat < 256 ^ 8 := ip.isLt
    rw [Nat.add_zero, pow_zero, Nat.div_one, Nat.mod_eq_of_lt small] at loaded
    exact loaded
  rw [getIpVal, if_neg (by decide), if_neg (by decide), if_pos room]
  simp only [Reading.value_bind, Reading.value_pure, whole, BitVec.ofNat_toNat, BitVec.setWidth_eq]

/-- The bits above a shift are the same. -/
theorem getLsbD_of_shift {k : Nat} (same : prev >>> k = ip >>> k) {j : Nat} (above : k ≤ j) :
    prev.getLsbD j = ip.getLsbD j := by
  have bit := congrArg (fun x => x.getLsbD (j - k)) same
  simpa [BitVec.getLsbD_ushiftRight, Nat.add_sub_of_le above] using bit

/-- A call on the payload of an IP packet gives the IP back. -/
theorem getIpVal_encode {n : IpBytes} (held : b.Holds p (n.encode ip)) (canonical : Canonical ip)
    (admits : n.Admits prev ip) : (getIpVal b p n.field.toNat prev).value = (p + n.payload, ip) := by
  cases n with
  | zero | four => cases admits
  | one => exact getIpVal_pieces (by decide) (by decide) held canonical fun j above _ => getLsbD_of_shift admits above
  | two => exact getIpVal_pieces (by decide) (by decide) held canonical fun j above _ => getLsbD_of_shift admits above
  | three =>
    -- nothing of the last IP is kept below bit 48
    exact getIpVal_pieces (n := 3) (by decide) (by decide) held canonical fun j above below => by omega
  | six => exact getIpVal_full held

end

theorem getIpVals_of_compressed {b : Buffer} {p : Nat} {prev : BitVec 64} {entries : List (IpBytes × BitVec 64)}
    (held : b.Holds p (encodeIps entries)) (compressed : Compressed prev entries) :
    getIpVals b p prev (entries.map Prod.fst) = withCursors p entries := by
  induction entries generalizing p prev with
  | nil => rfl
  | cons entry rest ih =>
    obtain ⟨n, ip⟩ := entry
    obtain ⟨canonical, admits, compressed⟩ := compressed
    obtain ⟨first, later⟩ := Buffer.holds_append.mp held
    have call := getIpVal_encode first canonical admits
    have length : (n.encode ip).length = n.payload := by simp [IpBytes.encode]
    rw [length] at later
    rw [List.map_cons, getIpVals, withCursors, call, ih later compressed]

/-- Decoding the payloads of any sequence of canonical addresses gives the sequence back, and moves the cursor
    from payload to payload. -/
theorem getIpVals_encode (stream : IpStream) :
    getIpVals (.ofList (encodeIps stream.entries)) 0 0 (stream.entries.map Prod.fst) =
      withCursors 0 stream.entries :=
  getIpVals_of_compressed (Buffer.holds_ofList _) stream.compressed

/-- A kernel address in full, one in the same 4 GiB and one in the same 64 KiB. -/
def kernelIps : IpStream where
  entries := [(.six, 0xffffffffc0a01000), (.two, 0xffffffffc0b02040), (.one, 0xffffffffc0b02094)]
  compressed := by
    have canonical : ∀ ip ∈ [0xffffffffc0a01000, 0xffffffffc0b02040, 0xffffffffc0b02094], Canonical ip := by
      intro ip member j low high
      simp only [List.mem_cons, List.not_mem_nil, or_false] at member
      rcases member with rfl | rfl | rfl <;> interval_cases j <;> rfl
    exact ⟨canonical _ (by simp), trivial, canonical _ (by simp), rfl, canonical _ (by simp), rfl, trivial⟩

theorem getIpVals_kernelIps :
    getIpVals (.ofList (encodeIps kernelIps.entries)) 0 0 [.six, .two, .one] =
      [(8, 0xffffffffc0a01000), (12, 0xffffffffc0b02040), (14, 0xffffffffc0b02094)] :=
  getIpVals_encode kernelIps

end DevFuzz.PT
