import DevFuzz.Lib.Ring
import DevFuzz.PT.Behind
import DevFuzz.PT.Records
import DevFuzz.Perf.AuxBuffer
import DevFuzz.Perf.GetEvent
import DevFuzz.Proxy.AFLClient

/-! # From the rings to the coverage map

`check_buffer` of `proxy/pt-runner.cpp` on the bytes of the rings.  A record is read with
`get_event`, the data of an AUX record is taken out of the AUX ring, decoded, and its IPs
are logged.  The kernel writes records and trace data at free-running counters, and both
rings wrap.

`pipeline_of_run` follows the kernel and the proxy over a whole run: what the client has
logged after a call are the IPs of all data written so far, in the order of the records.
No record arrives during a call here: the calls are those of the record loop of `Perf.proxy`
in the runs without such records (`mirrored_of_run`).  `record_lost_inside_window` is about
records that do arrive then.
-/

namespace DevFuzz.Perf.Pipeline

open DevFuzz.Lib DevFuzz.Lib.Bytes DevFuzz.PT DevFuzz.Proxy

/-! ## The proxy -/

def PERF_RECORD_AUX : Nat := 11

def PERF_RECORD_ITRACE_START : Nat := 12

/-- `REGULAR_RING_DATA_PAGES * 4096` -/
def ringSize : Nat := 16384

/-- `AUX_RING_PAGES * 4096` -/
def auxRingSize : Nat := 4194304

/-- The two rings with the counters of `perf_event_mmap_page`, and the client. -/
structure Tracer where
  ring : Memory
  auxRing : Memory
  dataHead : Nat
  dataTail : Nat
  auxHead : Nat
  auxTail : Nat
  client : AFLClient

/-- `get_event` for a record type of that size. -/
def Tracer.event (t : Tracer) (size dataTail : Nat) : Memory :=
  (getEvent (fun i => t.ring i.toNat) size (.ofNat dataTail)).byte

/-- The branch for an AUX record; `none` is the failed assertion.  The flags are only printed.  `allocated`
    is what `malloc` has left in the buffer and behind it. -/
def Tracer.handleAux (allocated : Memory) (t : Tracer) (dataTail : Nat) : Option Tracer :=
  let record := t.event 80 dataTail
  let auxOffset := loadLE record 8 8
  let auxSize := loadLE record 16 8
  if auxSize ≠ 0 then
    let ptrecord := perfAuxBuffer (.ofNat auxRingSize) (.ofNat auxOffset) (.ofNat auxSize)
    let decoded := decode ⟨ptrecord.data t.auxRing allocated, auxSize⟩ {}
    if t.auxTail + auxSize ≤ t.auxHead then
      some { t with
        auxTail := t.auxTail + auxSize
        client := (t.client.logAll (decoded.logged.map fun entry => .ofBitVec entry.2)).2 }
    else none
  else some t

/-- The loop over the records.  It moves on by the size of a record, so that `data_head - data_tail` passes
    are enough unless a record has no size. -/
def Tracer.records (allocated : Nat → Memory) (dataHead : Nat) : Nat → Tracer → Nat → Option Tracer
  | 0, t, dataTail => if dataHead ≠ dataTail then none else some t
  | fuel + 1, t, dataTail =>
    if dataHead ≠ dataTail then
      -- `get_event` would read outside the ring
      if realTail dataTail < 0 then none
      else
        let header := t.event 8 dataTail
        let type := loadLE header 0 4
        let size := loadLE header 6 2
        if type = PERF_RECORD_AUX then do
          let t ← t.handleAux (allocated dataTail) dataTail
          t.records allocated dataHead fuel (dataTail + size)
        else if type = PERF_RECORD_ITRACE_START then t.records allocated dataHead fuel (dataTail + size)
        -- `unreachable`, or `exit(-1)` for a type it does not know
        else none
    else some t

/-- A call of `check_buffer`; `none` when it does not return. -/
def Tracer.checkBuffer (allocated : Nat → Memory) (t : Tracer) : Option Tracer :=
  if t.dataHead = t.dataTail then some t
  else do
    let t ← t.records allocated t.dataHead (t.dataHead - t.dataTail) t.dataTail
    some { t with dataTail := t.dataHead }

/-! ## The kernel -/

/-- The bytes of a little-endian word. -/
def word (width value : Nat) : List UInt8 := (List.range width).map (byteOf value)

/-- A record, as the kernel writes it; `trailer` is the rest of the record. -/
inductive Entry where
  | aux (misc flags : Nat) (data trailer : List UInt8)
  | itraceStart (misc : Nat) (trailer : List UInt8)

/-- The trace data that goes with the record. -/
def Entry.data : Entry → List UInt8
  | .aux _ _ data _ => data
  | .itraceStart _ _ => []

def Entry.size : Entry → Nat
  | .aux _ _ _ trailer => 32 + trailer.length
  | .itraceStart _ trailer => 8 + trailer.length

/-- The bytes of the record when its data starts at `auxHead`. -/
def Entry.bytes (auxHead : Nat) : Entry → List UInt8
  | .aux misc flags data trailer =>
    word 4 PERF_RECORD_AUX ++ word 2 misc ++ word 2 (32 + trailer.length) ++ word 8 auxHead ++ word 8 data.length ++
      word 8 flags ++ trailer
  | .itraceStart misc trailer => word 4 PERF_RECORD_ITRACE_START ++ word 2 misc ++ word 2 (8 + trailer.length) ++ trailer

/-- The kernel writes the data and then the record, if there is room for both. -/
def Tracer.append (t : Tracer) (e : Entry) : Option Tracer :=
  if t.dataHead + e.size ≤ t.dataTail + ringSize ∧ t.auxHead + e.data.length ≤ t.auxTail + auxRingSize then
    some { t with
      auxRing := Ring.write auxRingSize t.auxRing t.auxHead e.data
      auxHead := t.auxHead + e.data.length
      ring := Ring.write ringSize t.ring t.dataHead (e.bytes t.auxHead)
      dataHead := t.dataHead + e.size }
  else none

inductive Action where
  | append (e : Entry)
  | poll (allocated : Nat → Memory)

def step (t : Tracer) : Action → Option Tracer
  | .append e => t.append e
  | .poll allocated => t.checkBuffer allocated

def Steps (t : Tracer) (a : Action) (u : Tracer) : Prop := step t a = some u

/-- Rings with nothing in them. -/
def Tracer.init (ring auxRing : Memory) (client : AFLClient) : Tracer := ⟨ring, auxRing, 0, 0, 0, 0, client⟩

/-- The records of a run. -/
def appended (actions : List Action) : List Entry := actions.filterMap fun a => match a with
  | .append e => some e
  | .poll _ => none

/-- What is to be logged for a record. -/
def Entry.ips (e : Entry) : List UInt64 := (auxIps e.data).map UInt64.ofBitVec

/-! ## Words in memory -/

/-- The first bytes of the memory are those of the list. -/
def Shows (m : Memory) (n : Nat) (bytes : List UInt8) : Prop := ∀ j x, j < n → bytes[j]? = some x → m j = x

@[simp] theorem length_word (width value : Nat) : (word width value).length = width := by
  simp [word]

/-- A word that stands in the list is loaded. -/
theorem Shows.loadLE {m : Memory} {n start width value : Nat} {bytes before after : List UInt8}
    (shows : Shows m n bytes) (shape : bytes = before ++ (word width value ++ after)) (length : before.length = start)
    (room : start + width ≤ n) (small : value < 256 ^ width) : loadLE m start width = value := by
  have same : ∀ j ∈ List.range width, m (start + j) = byteOf value j := by
    intro j member
    have inside := List.mem_range.mp member
    apply shows _ _ (by omega)
    rw [shape, ← length, List.getElem?_append_right (Nat.le_add_right _ _), Nat.add_sub_cancel_left,
      List.getElem?_append_left (by simpa using inside)]
    simp [word, inside]
  rw [Bytes.loadLE, window, List.map_congr_left same, leValue_byteOf, Nat.mod_eq_of_lt small]

/-! ## One record -/

def Entry.type : Entry → Nat
  | .aux _ _ _ _ => PERF_RECORD_AUX
  | .itraceStart _ _ => PERF_RECORD_ITRACE_START

def Entry.misc : Entry → Nat
  | .aux misc _ _ _ => misc
  | .itraceStart misc _ => misc

/-- What stands behind the header. -/
def Entry.body (auxHead : Nat) : Entry → List UInt8
  | .aux _ flags data trailer => word 8 auxHead ++ (word 8 data.length ++ (word 8 flags ++ trailer))
  | .itraceStart _ trailer => trailer

theorem Entry.bytes_eq (auxHead : Nat) (e : Entry) :
    e.bytes auxHead = word 4 e.type ++ (word 2 e.misc ++ (word 2 e.size ++ e.body auxHead)) := by
  cases e <;> simp [Entry.bytes, Entry.type, Entry.misc, Entry.size, Entry.body]

@[simp] theorem Entry.length_bytes (auxHead : Nat) (e : Entry) : (e.bytes auxHead).length = e.size := by
  cases e <;> simp [Entry.bytes, Entry.size] <;> omega

theorem Entry.size_pos (e : Entry) : 8 ≤ e.size := by
  cases e with
  | aux => simp [Entry.size]; omega
  | itraceStart => simp [Entry.size]

/-- `get_event` finds the bytes that stand in the ring. -/
theorem Tracer.shows_event {t : Tracer} {dataTail : Nat} {bytes : List UInt8} (size : RecordSize)
    (small : dataTail < 2 ^ 31) (holds : Ring.Holds ringSize t.ring dataTail bytes) :
    Shows (t.event size.size dataTail) size.size bytes := by
  intro j x inside found
  have exact : (UInt64.ofNat dataTail).toNat = dataTail := by
    rw [UInt64.toNat_ofNat']
    exact Nat.mod_eq_of_lt (by omega)
  have nonneg : 0 ≤ realTail (UInt64.ofNat dataTail).toNat := by
    rw [exact]
    exact realTail_nonneg small
  have right := right_of_nonneg (fun i => t.ring i.toNat) size (.ofNat dataTail) nonneg
  rw [Tracer.event, right.byte j inside, exact, Int.toNat_natCast]
  exact holds j x found

theorem logAll_append (client : AFLClient) (left right : List UInt64) :
    (client.logAll (left ++ right)).2 = ((client.logAll left).2.logAll right).2 := by
  induction left generalizing client with
  | nil => rfl
  | cons loc left ih =>
    simp only [List.cons_append, AFLClient.logAll]
    exact ih _

theorem toNat_ofNat_of_lt {n : Nat} (small : n < 2 ^ 63) : (UInt64.ofNat n).toNat = n := by
  rw [UInt64.toNat_ofNat']
  exact Nat.mod_eq_of_lt (by omega)

/-- The data of a record is decoded as it was written, whatever `malloc` has left in the buffer. -/
theorem decode_auxBuffer {auxRing allocated : Memory} {auxTail : Nat} {data : List UInt8} (small : auxTail < 2 ^ 63)
    (fits : data.length ≤ auxRingSize) (holds : Ring.Holds auxRingSize auxRing auxTail data) :
    decode ⟨(perfAuxBuffer (.ofNat auxRingSize) (.ofNat auxTail) (.ofNat data.length)).data auxRing allocated,
      data.length⟩ {} = decode (.ofList data) {} := by
  have ringExact : (UInt64.ofNat auxRingSize).toNat = auxRingSize := by decide
  have offsetExact := toNat_ofNat_of_lt small
  have sizeExact : (UInt64.ofNat data.length).toNat = data.length := toNat_ofNat_of_lt (by simp [auxRingSize] at fits; omega)
  let r : AuxRecord :=
    { ringSize := .ofNat auxRingSize, offset := .ofNat auxTail, size := .ofNat data.length
      ringSize_pos := by decide
      size_le := by rw [ringExact, sizeExact]; exact fits
      apart := by rw [ringExact, sizeExact]; simp [auxRingSize] at fits ⊢; omega }
  have unrolled : r.Unrolled auxRing allocated := by
    by_cases room : r.place + r.size < r.ringSize
    · exact r.unrolled_of_lt auxRing allocated room
    · exact r.unrolled_of_ge auxRing allocated room
  apply decode_congr
  constructor
  · rfl
  · intro i inside
    have byte := unrolled.byte i (sizeExact.symm ▸ inside)
    rw [show r.ringSize.toNat = auxRingSize from ringExact, show r.offset.toNat = auxTail from offsetExact] at byte
    have found : data[i]? = some data[i] := List.getElem?_eq_getElem inside
    exact byte.trans ((holds i _ found).trans (by simp [Buffer.ofList, found]))

/-- What the loop does for a record. -/
def Tracer.after (t : Tracer) (e : Entry) : Tracer :=
  { t with auxTail := t.auxTail + e.data.length, client := (t.client.logAll e.ips).2 }

section

variable {t : Tracer} {dataTail : Nat} {e : Entry} {rest : List UInt8}
  (small : dataTail < 2 ^ 31) (fits : e.size ≤ ringSize)
  (holds : Ring.Holds ringSize t.ring dataTail (e.bytes t.auxTail ++ rest))

include small holds

theorem Tracer.header_type : loadLE (t.event 8 dataTail) 0 4 = e.type := by
  have shows := t.shows_event ⟨8, by decide, by decide⟩ small holds
  have shape : e.bytes t.auxTail ++ rest =
      [] ++ (word 4 e.type ++ (word 2 e.misc ++ (word 2 e.size ++ (e.body t.auxTail ++ rest)))) := by
    simp [Entry.bytes_eq]
  refine shows.loadLE shape rfl (by decide) ?_
  cases e <;> simp [Entry.type, PERF_RECORD_AUX, PERF_RECORD_ITRACE_START]

include fits

theorem Tracer.header_size : loadLE (t.event 8 dataTail) 6 2 = e.size := by
  have shows := t.shows_event ⟨8, by decide, by decide⟩ small holds
  have shape : e.bytes t.auxTail ++ rest =
      (word 4 e.type ++ word 2 e.misc) ++ (word 2 e.size ++ (e.body t.auxTail ++ rest)) := by
    simp [Entry.bytes_eq]
  refine shows.loadLE shape (by simp) (by decide) ?_
  rw [ringSize] at fits
  omega

end

/-- An AUX record is handled: the assertion holds, and the IPs of its data are logged. -/
theorem Tracer.handleAux_eq {t : Tracer} (allocated : Memory) {dataTail misc flags : Nat}
    {data trailer rest : List UInt8} (small : dataTail < 2 ^ 31) (auxSmall : t.auxTail < 2 ^ 63)
    (auxFits : data.length ≤ auxRingSize)
    (holds : Ring.Holds ringSize t.ring dataTail ((Entry.aux misc flags data trailer).bytes t.auxTail ++ rest))
    (auxHolds : Ring.Holds auxRingSize t.auxRing t.auxTail data) (head : t.auxTail + data.length ≤ t.auxHead) :
    t.handleAux allocated dataTail = some (t.after (.aux misc flags data trailer)) := by
  have shows := t.shows_event ⟨80, by decide, by decide⟩ small holds
  have offset : loadLE (t.event 80 dataTail) 8 8 = t.auxTail := by
    have shape : (Entry.aux misc flags data trailer).bytes t.auxTail ++ rest =
        (word 4 PERF_RECORD_AUX ++ (word 2 misc ++ word 2 (32 + trailer.length))) ++
          (word 8 t.auxTail ++ (word 8 data.length ++ (word 8 flags ++ (trailer ++ rest)))) := by
      simp [Entry.bytes]
    exact shows.loadLE shape (by simp) (by decide) (by omega)
  have size : loadLE (t.event 80 dataTail) 16 8 = data.length := by
    have shape : (Entry.aux misc flags data trailer).bytes t.auxTail ++ rest =
        (word 4 PERF_RECORD_AUX ++ (word 2 misc ++ (word 2 (32 + trailer.length) ++ word 8 t.auxTail))) ++
          (word 8 data.length ++ (word 8 flags ++ (trailer ++ rest))) := by
      simp [Entry.bytes]
    rw [auxRingSize] at auxFits
    exact shows.loadLE shape (by simp) (by decide) (by omega)
  simp only [Tracer.handleAux, offset, size]
  split_ifs with some
  · rw [decode_auxBuffer auxSmall auxFits auxHolds]
    simp only [Tracer.after, Entry.data, Entry.ips, auxIps_eq, List.map_map]
    rfl
  · obtain rfl : data = [] := List.length_eq_zero_iff.mp (Decidable.not_not.mp some)
    simp [Tracer.after, Entry.data, Entry.ips, auxIps, AFLClient.logAll]

/-! ## One call -/

/-- The bytes of records whose data starts at `auxHead`. -/
def stream : Nat → List Entry → List UInt8
  | _, [] => []
  | auxHead, e :: entries => e.bytes auxHead ++ stream (auxHead + e.data.length) entries

def total (entries : List Entry) : Nat := (entries.map Entry.size).sum

theorem length_stream (auxHead : Nat) (entries : List Entry) : (stream auxHead entries).length = total entries := by
  induction entries generalizing auxHead with
  | nil => rfl
  | cons e entries ih => simp [stream, ih, total]

/-- The rings hold the records and the data that have not been handled. -/
structure Pending (t : Tracer) (dataTail : Nat) (entries : List Entry) : Prop where
  ring : Ring.Holds ringSize t.ring dataTail (stream t.auxTail entries)
  auxRing : Ring.Holds auxRingSize t.auxRing t.auxTail (entries.flatMap Entry.data)
  head : t.dataHead = dataTail + total entries
  auxHead : t.auxHead = t.auxTail + (entries.flatMap Entry.data).length
  room : total entries ≤ ringSize
  auxRoom : (entries.flatMap Entry.data).length ≤ auxRingSize

theorem Pending.tail {t : Tracer} {dataTail : Nat} {e : Entry} {entries : List Entry}
    (pending : Pending t dataTail (e :: entries)) : Pending (t.after e) (dataTail + e.size) entries := by
  obtain ⟨ring, auxRing, head, auxHead, room, auxRoom⟩ := pending
  rw [List.flatMap_cons, Ring.holds_append] at auxRing
  rw [stream, Ring.holds_append, Entry.length_bytes] at ring
  simp only [List.flatMap_cons, List.length_append, total, List.map_cons, List.sum_cons] at head auxHead room auxRoom
  exact ⟨ring.2, auxRing.2, by simp only [Tracer.after, total]; omega, by simp only [Tracer.after]; omega,
    by simp only [total]; omega, by omega⟩

/-- One pass of the loop takes the next record. -/
theorem Tracer.records_cons {t : Tracer} {allocated : Nat → Memory} {dataTail fuel : Nat} {e : Entry}
    {entries : List Entry} (pending : Pending t dataTail (e :: entries)) (small : t.dataHead ≤ 2 ^ 31)
    (auxSmall : t.auxHead < 2 ^ 63) :
    t.records allocated t.dataHead (fuel + 1) dataTail =
      (t.after e).records allocated t.dataHead fuel (dataTail + e.size) := by
  obtain ⟨ring, auxRing, head, auxHead, room, auxRoom⟩ := pending
  have positive := e.size_pos
  rw [List.flatMap_cons, Ring.holds_append] at auxRing
  simp only [List.flatMap_cons, List.length_append, total, List.map_cons, List.sum_cons] at head auxHead room auxRoom
  rw [stream] at ring
  have low : dataTail < 2 ^ 31 := by omega
  have nonneg := realTail_nonneg low
  have type := t.header_type low ring
  have size := t.header_size low (by omega) ring
  rw [Tracer.records, if_pos (by omega), if_neg (by omega)]
  simp only [type, size]
  cases e with
  | aux misc flags data trailer =>
    rw [Entry.data] at auxRoom auxHead auxRing
    have handled := t.handleAux_eq (allocated dataTail) low (by omega) (by omega) ring auxRing.1 (by omega)
    simp [Entry.type, handled]
  | itraceStart misc trailer =>
    have same : t.after (.itraceStart misc trailer) = t := by
      simp [Tracer.after, Entry.data, Entry.ips, auxIps, AFLClient.logAll]
    simp [Entry.type, same, PERF_RECORD_AUX, PERF_RECORD_ITRACE_START]

/-- What the loop does for the records that are there. -/
def Tracer.afterAll (t : Tracer) (entries : List Entry) : Tracer :=
  { t with
    auxTail := t.auxTail + (entries.flatMap Entry.data).length
    client := (t.client.logAll (entries.flatMap Entry.ips)).2 }

theorem Tracer.afterAll_cons (t : Tracer) (e : Entry) (entries : List Entry) :
    t.afterAll (e :: entries) = (t.after e).afterAll entries := by
  simp [Tracer.afterAll, Tracer.after, logAll_append, Nat.add_assoc]

/-- The loop takes all records; `data_head - data_tail` passes are enough. -/
theorem Tracer.records_eq {t : Tracer} {allocated : Nat → Memory} {dataTail fuel : Nat} {entries : List Entry}
    (pending : Pending t dataTail entries) (small : t.dataHead ≤ 2 ^ 31) (auxSmall : t.auxHead < 2 ^ 63)
    (enough : total entries ≤ fuel) :
    t.records allocated t.dataHead fuel dataTail = some (t.afterAll entries) := by
  induction entries generalizing t dataTail fuel with
  | nil =>
    have head : t.dataHead = dataTail := pending.head
    have same : t.afterAll [] = t := by simp [Tracer.afterAll, AFLClient.logAll]
    cases fuel <;> simp [Tracer.records, head, same]
  | cons e entries ih =>
    have positive := e.size_pos
    simp only [total, List.map_cons, List.sum_cons] at enough
    obtain ⟨fuel, rfl⟩ : ∃ n, fuel = n + 1 := ⟨fuel - 1, by omega⟩
    rw [Tracer.records_cons pending small auxSmall, Tracer.afterAll_cons]
    exact ih pending.tail small auxSmall (by simp only [total]; omega)

theorem Tracer.checkBuffer_eq {t : Tracer} {entries : List Entry} (allocated : Nat → Memory)
    (pending : Pending t t.dataTail entries) (small : t.dataHead ≤ 2 ^ 31) (auxSmall : t.auxHead < 2 ^ 63) :
    t.checkBuffer allocated = some { t.afterAll entries with dataTail := t.dataHead } := by
  have head := pending.head
  rw [Tracer.checkBuffer]
  split_ifs with empty
  · cases entries with
    | nil =>
      cases t
      simp_all [Tracer.afterAll, AFLClient.logAll]
    | cons e entries =>
      have positive := e.size_pos
      simp only [total, List.map_cons, List.sum_cons] at head
      omega
  · rw [Tracer.records_eq pending small auxSmall (by omega)]
    rfl

/-! ## The whole run -/

/-- The records are those handled and those still in the rings. -/
structure Consistent (client : AFLClient) (t : Tracer) (done pending : List Entry) : Prop where
  pending : Pending t t.dataTail pending
  client : t.client = (client.logAll (done.flatMap Entry.ips)).2

theorem stream_append (auxHead : Nat) (entries : List Entry) (e : Entry) :
    stream auxHead (entries ++ [e]) =
      stream auxHead entries ++ e.bytes (auxHead + (entries.flatMap Entry.data).length) := by
  induction entries generalizing auxHead with
  | nil => simp [stream]
  | cons first entries ih => simp [stream, ih, Nat.add_assoc]

theorem Consistent.append {client : AFLClient} {t u : Tracer} {done pending : List Entry} {e : Entry}
    (consistent : Consistent client t done pending) (taken : t.append e = some u) :
    Consistent client u done (pending ++ [e]) := by
  obtain ⟨⟨ring, auxRing, head, auxHead, room, auxRoom⟩, logged⟩ := consistent
  unfold Tracer.append at taken
  split_ifs at taken with free
  obtain ⟨free, auxFree⟩ := free
  obtain rfl := Option.some.inj taken
  have sum : total (pending ++ [e]) = total pending + e.size := by simp [total]
  have auxSum : ((pending ++ [e]).flatMap Entry.data).length = (pending.flatMap Entry.data).length + e.data.length := by
    simp
  refine ⟨⟨?_, ?_, ?_, ?_, ?_, ?_⟩, logged⟩
  · -- the record is written behind those that are there, and does not come round to them
    dsimp only
    rw [stream_append, Ring.holds_append, length_stream, ← head, ← auxHead]
    constructor
    · exact ring.write _ (by rw [length_stream]; omega) (by rw [Entry.length_bytes]; omega)
    · exact Ring.holds_write _ _ (by rw [Entry.length_bytes]; omega)
  · dsimp only
    rw [List.flatMap_append, Ring.holds_append, ← auxHead]
    constructor
    · exact auxRing.write _ (by omega) (by omega)
    · simpa using Ring.holds_write _ _ (by omega)
  · dsimp only
    omega
  · dsimp only
    omega
  · omega
  · omega

/-- A call handles everything that is in the rings. -/
theorem Consistent.poll {client : AFLClient} {t : Tracer} {done pending : List Entry}
    (consistent : Consistent client t done pending) :
    Consistent client { t.afterAll pending with dataTail := t.dataHead } (done ++ pending) [] where
  pending := by
    have auxHead := consistent.pending.auxHead
    exact ⟨Ring.holds_nil _ _, Ring.holds_nil _ _, rfl, auxHead, Nat.zero_le _, Nat.zero_le _⟩
  client := by
    rw [List.flatMap_append, logAll_append, ← consistent.client]
    rfl

theorem consistent_init (ring auxRing : Memory) (client : AFLClient) :
    Consistent client (.init ring auxRing client) [] [] :=
  ⟨⟨Ring.holds_nil _ _, Ring.holds_nil _ _, rfl, rfl, Nat.zero_le _, Nat.zero_le _⟩, rfl⟩

/-- The proxy leaves the counters of the kernel alone. -/
structure SameHeads (t u : Tracer) : Prop where
  data : u.dataHead = t.dataHead
  aux : u.auxHead = t.auxHead

theorem Tracer.handleAux_heads {t u : Tracer} {allocated : Memory} {dataTail : Nat}
    (handled : t.handleAux allocated dataTail = some u) : SameHeads t u := by
  simp only [Tracer.handleAux] at handled
  split_ifs at handled <;> exact Option.some.inj handled ▸ ⟨rfl, rfl⟩

theorem Tracer.records_heads {t u : Tracer} {allocated : Nat → Memory} {dataHead fuel dataTail : Nat}
    (looped : t.records allocated dataHead fuel dataTail = some u) : SameHeads t u := by
  induction fuel generalizing t dataTail with
  | zero =>
    rw [Tracer.records] at looped
    split_ifs at looped
    exact Option.some.inj looped ▸ ⟨rfl, rfl⟩
  | succ fuel ih =>
    simp only [Tracer.records] at looped
    split_ifs at looped
    · obtain ⟨v, handled, rest⟩ := Option.bind_eq_some_iff.mp looped
      have first := handleAux_heads handled
      have later := ih rest
      exact ⟨later.data.trans first.data, later.aux.trans first.aux⟩
    · exact ih looped
    · exact Option.some.inj looped ▸ ⟨rfl, rfl⟩

theorem heads_le {t u : Tracer} {a : Action} (taken : Steps t a u) :
    t.dataHead ≤ u.dataHead ∧ t.auxHead ≤ u.auxHead := by
  cases a with
  | append e =>
    simp only [Steps, step, Tracer.append] at taken
    split_ifs at taken
    obtain rfl := Option.some.inj taken
    exact ⟨Nat.le_add_right _ _, Nat.le_add_right _ _⟩
  | poll allocated =>
    simp only [Steps, step, Tracer.checkBuffer] at taken
    split_ifs at taken
    · obtain rfl := Option.some.inj taken
      exact ⟨Nat.le_refl _, Nat.le_refl _⟩
    · obtain ⟨v, looped, last⟩ := Option.bind_eq_some_iff.mp taken
      obtain rfl := Option.some.inj last
      have same := Tracer.records_heads looped
      exact ⟨same.data.ge, same.aux.ge⟩

theorem heads_le_of_run {t u : Tracer} {actions : List Action} (run : Run Steps t actions u) :
    t.dataHead ≤ u.dataHead ∧ t.auxHead ≤ u.auxHead := by
  induction run with
  | nil t => exact ⟨Nat.le_refl _, Nat.le_refl _⟩
  | cons first _ ih =>
    obtain ⟨data, aux⟩ := heads_le first
    exact ⟨data.trans ih.1, aux.trans ih.2⟩

theorem consistent_of_run {client : AFLClient} {t u : Tracer} {done pending : List Entry} {actions : List Action}
    (consistent : Consistent client t done pending) (run : Run Steps t actions u) (small : u.dataHead ≤ 2 ^ 31)
    (auxSmall : u.auxHead < 2 ^ 63) :
    ∃ done' pending', Consistent client u done' pending' ∧ done' ++ pending' = done ++ pending ++ appended actions := by
  induction run generalizing done pending with
  | nil t => exact ⟨done, pending, consistent, by simp [appended]⟩
  | @cons t v u a actions first rest ih =>
    cases a with
    | append e =>
      obtain ⟨done', pending', last, all⟩ := ih (consistent.append first) small auxSmall
      exact ⟨done', pending', last, by simp [all, appended]⟩
    | poll allocated =>
      -- the counters were smaller then
      obtain ⟨data, aux⟩ := heads_le_of_run (Run.cons first rest)
      have polled := t.checkBuffer_eq allocated consistent.pending (by omega) (by omega)
      obtain rfl := Option.some.inj (polled.symm.trans first)
      obtain ⟨done', pending', last, all⟩ := ih consistent.poll small auxSmall
      exact ⟨done', pending', last, by simp [all, appended]⟩

/-- What a call leaves when the records so far are `entries`. -/
structure Polled (client : AFLClient) (entries : List Entry) (t u : Tracer) : Prop where
  dataTail : u.dataTail = t.dataHead
  auxTail : u.auxTail = t.auxHead
  logged : u.client = (client.logAll (entries.flatMap Entry.ips)).2
  /-- the map counts the edges between the IPs of all data -/
  map : ∀ area, AFLClient.Attached area client → ∃ after, AFLClient.Attached after u.client ∧
    ∀ idx, after idx = area idx + .ofNat ((client.logAll (entries.flatMap Entry.ips)).1.count idx)

/-- Whatever the order in which the kernel appends and the proxy polls, the next call returns, and the client has
    then logged the IPs of all data appended so far, once and in order.  The records are at most 2 GiB, since
    `get_event` takes the counter as an `int`. -/
theorem pipeline_of_run {ring auxRing : Memory} {client : AFLClient} {actions : List Action} {t : Tracer}
    (run : Run Steps (.init ring auxRing client) actions t) (small : t.dataHead ≤ 2 ^ 31)
    (auxSmall : t.auxHead < 2 ^ 63) (allocated : Nat → Memory) :
    ∃ u, t.checkBuffer allocated = some u ∧ Polled client (appended actions) t u := by
  obtain ⟨done, pending, consistent, all⟩ := consistent_of_run (consistent_init ring auxRing client) run small auxSmall
  have all : done ++ pending = appended actions := all
  have logged := consistent.poll.client
  rw [all] at logged
  refine ⟨_, t.checkBuffer_eq allocated consistent.pending small auxSmall, rfl, consistent.pending.auxHead.symm, logged, ?_⟩
  intro area attached
  rw [logged]
  exact attached.logAll_area _

/-! ## The record loop of `Perf.proxy`

`Perf.proxy` is `check_buffer` as well, one access of the counters at a time and with records in place of bytes. -/

def Entry.record (e : Entry) : Record where
  type := match e with
    | .aux _ _ data _ => .aux data.length
    | .itraceStart _ _ => .itraceStart
  size := e.size
  size_pos := Nat.lt_of_lt_of_le (by decide) e.size_pos

theorem Entry.auxSize_record (e : Entry) : e.record.auxSize = e.data.length := by
  cases e <;> rfl

/-- Between two calls the record loop has the same counters, and has visited the records that have been
    handled. -/
structure Mirrors (t : Tracer) (done pending : List Entry) (s : State) : Prop where
  sound : Sound s
  idle : s.pc = .idle
  visited : s.visited = done.map Entry.record
  appended : s.appended = (done ++ pending).map Entry.record
  dataHead : s.dataHead = t.dataHead
  dataTail : s.dataTail = t.dataTail
  auxHead : s.auxHead = t.auxHead
  auxTail : s.auxTail = t.auxTail

theorem mirrors_init (ring auxRing : Memory) (client : AFLClient) : Mirrors (.init ring auxRing client) [] [] .init :=
  ⟨⟨tracked_init, by simp [State.init]⟩, rfl, rfl, rfl, rfl, rfl, rfl, rfl⟩

theorem Mirrors.append {t u : Tracer} {done pending : List Entry} {s : State} {e : Entry}
    (mirrors : Mirrors t done pending s) (taken : t.append e = some u) :
    Mirrors u done (pending ++ [e]) (Perf.append s e.record) := by
  obtain ⟨⟨tracked, alive⟩, idle, visited, appended, dataHead, dataTail, auxHead, auxTail⟩ := mirrors
  unfold Tracer.append at taken
  split_ifs at taken
  obtain rfl := Option.some.inj taken
  refine ⟨⟨tracked_append tracked (by rw [idle]; rfl) _, fun _ => ?_⟩, idle, visited, ?_, ?_, dataTail, ?_, auxTail⟩
  · show s.pc ≠ .dead
    rw [idle]
    exact nofun
  · simp [Perf.append, appended]
  · simp [Perf.append, dataHead, Entry.record]
  · simp [Perf.append, auxHead, e.auxSize_record]

/-- A call of `check_buffer` is some number of steps of the record loop. -/
theorem Mirrors.poll {t : Tracer} {done pending : List Entry} {s : State} (mirrors : Mirrors t done pending s)
    (ring : Pending t t.dataTail pending) (small : t.dataHead ≤ 2 ^ 31) :
    ∃ n, Mirrors { t.afterAll pending with dataTail := t.dataHead } (done ++ pending) [] (proxy^[n] s) := by
  obtain ⟨sound, idle, visited, appended, dataHead, dataTail, auxHead, auxTail⟩ := mirrors
  have benign : Benign s.appended := by
    refine ⟨fun r member => ?_, ?_⟩
    · rw [appended] at member
      obtain ⟨e, -, rfl⟩ := List.mem_map.mp member
      cases e <;> rfl
    · rw [← sound.1.head, dataHead]
      exact small
  obtain ⟨n, idle', all⟩ := exists_caughtUp sound benign
  have later : Sound (proxy^[n] s) := Function.Iterate.rec Sound sound (fun _ => sound_proxy) n
  have same : (proxy^[n] s).appended = s.appended :=
    Function.Iterate.rec (fun u => u.appended = s.appended) rfl (fun u same => (proxy_appended u).trans same) n
  have head : (proxy^[n] s).dataHead = t.dataHead := by rw [later.1.head, same, ← sound.1.head, dataHead]
  have auxHead' : (proxy^[n] s).auxHead = t.auxHead := by rw [later.1.auxHead, same, ← sound.1.auxHead, auxHead]
  refine ⟨n, later, idle', by rw [all, appended], by rw [same, appended, List.append_nil], head, ?_, auxHead', ?_⟩
  · rw [later.1.idle idle', all, ← same, ← later.1.head, head]
  · have tail : (proxy^[n] s).auxTail = t.auxHead := by
      rw [later.1.auxTail (by rw [idle']; exact nofun), all, ← sound.1.auxHead, auxHead]
    exact tail.trans ring.auxHead

theorem run_proxy (s : State) (n : Nat) : Run Quiet s (List.replicate n .proxy) (proxy^[n] s) := by
  induction n generalizing s with
  | zero => exact .nil s
  | succ n ih => exact .cons ⟨rfl, nofun⟩ (ih (proxy s))

theorem mirrored_of_consistent {client : AFLClient} {t u : Tracer} {done pending : List Entry} {s : State}
    {actions : List Action} (consistent : Consistent client t done pending) (mirrors : Mirrors t done pending s)
    (run : Run Steps t actions u) (small : u.dataHead ≤ 2 ^ 31) (auxSmall : u.auxHead < 2 ^ 63) :
    ∃ schedule s' done' pending', Run Quiet s schedule s' ∧ Mirrors u done' pending' s' ∧
      done' ++ pending' = done ++ pending ++ appended actions := by
  induction run generalizing done pending s with
  | nil t => exact ⟨[], s, done, pending, .nil s, mirrors, by simp [appended]⟩
  | @cons t v u a actions first rest ih =>
    cases a with
    | append e =>
      obtain ⟨schedule, s', done', pending', later, last, all⟩ :=
        ih (consistent.append first) (mirrors.append first) small auxSmall
      have quiet : Quiet s (.append e.record) (Perf.append s e.record) := ⟨rfl, fun _ => by rw [mirrors.idle]; rfl⟩
      exact ⟨_, s', done', pending', .cons quiet later, last, by simp [all, appended]⟩
    | poll allocated =>
      obtain ⟨data, aux⟩ := heads_le_of_run (Run.cons first rest)
      have polled := t.checkBuffer_eq allocated consistent.pending (by omega) (by omega)
      obtain rfl := Option.some.inj (polled.symm.trans first)
      obtain ⟨n, mirrors'⟩ := mirrors.poll consistent.pending (by omega)
      obtain ⟨schedule, s', done', pending', later, last, all⟩ := ih consistent.poll mirrors' small auxSmall
      exact ⟨_, s', done', pending', (run_proxy s n).append later, last, by simp [all, appended]⟩

/-- Every run on the bytes is one of the record loop in which no record arrives inside the window. -/
theorem mirrored_of_run {ring auxRing : Memory} {client : AFLClient} {actions : List Action} {t : Tracer}
    (run : Run Steps (.init ring auxRing client) actions t) (small : t.dataHead ≤ 2 ^ 31)
    (auxSmall : t.auxHead < 2 ^ 63) :
    ∃ schedule s done pending, Run Quiet .init schedule s ∧ Mirrors t done pending s ∧
      done ++ pending = appended actions :=
  mirrored_of_consistent (consistent_init ring auxRing client) (mirrors_init ring auxRing client) run small auxSmall

/-- A record with one IP. -/
def tipEntry : Entry := .aux 0 0 fullTip []

def freshClient : AFLClient := ⟨0x10000, some fun _ => 0, 0, -1⟩

/-- The record and the call that handles it. -/
theorem pipeline_of_tipEntry : ∃ t u, Run Steps (.init (fun _ => 0) (fun _ => 0) freshClient) [.append tipEntry] t ∧
    t.checkBuffer (fun _ _ => 0) = some u ∧ Polled freshClient [tipEntry] t u := by
  have first : (Tracer.init (fun _ => 0) (fun _ => 0) freshClient).append tipEntry = some _ := if_pos (by decide)
  have run : Run Steps (.init (fun _ => 0) (fun _ => 0) freshClient) [.append tipEntry] _ := .cons first (.nil _)
  obtain ⟨u, polled⟩ := pipeline_of_run run (by decide) (by decide) fun _ _ => 0
  exact ⟨_, u, run, polled⟩

end DevFuzz.Perf.Pipeline
