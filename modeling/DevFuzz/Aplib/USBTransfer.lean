import DevFuzz.Aplib.MappedFile
import DevFuzz.Lib.Writes

/-! # One USB transfer

`feedFuzzUSBData` copies the data of the fuzzer to the destination and puts the values
of the modelled fields on top.  The data may be shorter than the transfer:
`inside_and_defines_iff` says when the call stays inside it and still fills the whole
destination.  When the data is long enough, only the modelled fields are touched
(`touchesOnlyFields`).
-/

namespace DevFuzz.Aplib

open DevFuzz.Lib DevFuzz.Lib.Logged DevFuzz.Lib.Bytes DevFuzz.Stage2

/-- The arguments of a call: `afl_data` is `fuzzdata + start`. -/
structure USBTransfer where
  stage2 : Stage2Device
  file : FuzzFile
  start : Nat
  size : Nat
  aflLen : Nat
  size_pos : 1 ≤ size
  size_lt : size < 2147483648
  aflLen_pos : 1 ≤ aflLen
  aflLen_lt : aflLen < 2147483648
  nBytes_le : ∀ entry ∈ stage2.usbInputs.entries, entry.2.nBytes ≤ 8

namespace USBTransfer

variable (t : USBTransfer)

abbrev fields : List ((_ : Nat) × HWInput) := t.stage2.usbInputs.entries

def feed (dest : Memory) : Logged Access Stream Memory :=
  t.stage2.feedFuzzUSBData t.file t.start dest t.size t.aflLen

/-- `afl_data[i]` -/
def aflData (i : Nat) : UInt8 := t.file.data (t.start + i)

/-- The bytes of the destination that `field_sz` leaves of a field. -/
def inField (entry : (_ : Nat) × HWInput) (i : Nat) : Prop := entry.1 ≤ i ∧ i < min (entry.1 + entry.2.nBytes) t.size

/-- Every byte that is read is one of `afl_data[0 .. afl_len)`. -/
def ReadsInside : Prop :=
  ∀ dest, Always (fun a => ∀ i < a.len, t.start ≤ a.start + i ∧ a.start + i < t.start + t.aflLen) (t.feed dest)

/-- The call returns, whatever the random numbers are, and has then written the bytes
    `dest[0 .. size)`, all of them and no others. -/
def Defines : Prop := ∀ s, Writes s t.feed fun i => i < t.size

/-! ## Reads -/

theorem copyLen_eq : Stage2Device.copyLen t.size t.aflLen = (min t.size t.aflLen : Nat) := by
  unfold Stage2Device.copyLen
  split_ifs <;> omega

theorem readsInside_iff :
    t.ReadsInside ↔ ∀ entry ∈ upTo (usbPasses t.stage2 t.size) t.fields,
      entry.1 < t.size → entry.1 < t.aflLen →
        entry.1 + Stage2Device.fieldSz t.size entry.1 entry.2.nBytes ≤ t.aflLen := by
  have copy : ∀ i < (usbCopy t.file t.start t.size t.aflLen).len,
      t.start ≤ t.start + i ∧ t.start + i < t.start + t.aflLen := by
    have := t.size_lt
    intro i inside
    simp only [usbCopy, copyLen_eq] at inside
    omega
  have field : ∀ entry : (_ : Nat) × HWInput, entry.1 < t.size →
      ((∀ i < (usbAccess t.file t.start t.size entry).len, t.start ≤ t.start + entry.1 + i ∧
          t.start + entry.1 + i < t.start + t.aflLen) ↔
        entry.1 + Stage2Device.fieldSz t.size entry.1 entry.2.nBytes ≤ t.aflLen) := by
    intro entry inside
    have positive := fieldSz_pos inside
    simp only [usbAccess]
    constructor
    · intro all
      have := all (Stage2Device.fieldSz t.size entry.1 entry.2.nBytes - 1) (by omega)
      omega
    · intro fits i bound
      omega
  have accesses : ∀ dest, Always (fun a => ∀ i < a.len, t.start ≤ a.start + i ∧ a.start + i < t.start + t.aflLen)
      (t.stage2.feedFuzzUSBData t.file t.start dest t.size t.aflLen) ↔ _ :=
    fun dest => always_usbAccesses (Int.natCast_nonneg t.aflLen)
  unfold ReadsInside feed
  simp only [accesses, forall_const]
  refine (and_iff_right copy).trans (forall₃_congr fun entry _ inside => ?_)
  rw [Int.ofNat_lt]
  exact imp_congr_right fun _ => field entry inside

/-! ## Returns and stores -/

/-- The field can be drawn from, whatever the random numbers are. -/
def drawsAlways (entry : (_ : Nat) × HWInput) : Prop := entry.1 < t.size → entry.2.alwaysDrawable t.stage2.mode = true

/-- The call is the copy and then the loop over the fields. -/
theorem feed_result (dest : Memory) (s : Stream) :
    (t.feed dest).result s =
      (t.fields.foldlM (t.stage2.feedUSBField t.file t.start t.size t.aflLen)
        (copyInto dest 0 (min t.size t.aflLen) t.aflData)).result s := by
  unfold feed Stage2Device.feedFuzzUSBData
  rw [copyLen_eq, if_neg (Int.not_lt.mpr (Int.natCast_nonneg _)), Int.toNat_natCast]
  exact result_bind_of_some rfl

theorem feed_returns (draws : ∀ entry ∈ t.fields, t.drawsAlways entry) (dest : Memory) (s : Stream) :
    ∃ r, (t.feed dest).result s = some r := by
  have body : ∀ entry ∈ t.fields, ∀ dest, Returns (fun _ : Stream => True)
      (t.stage2.feedUSBField t.file t.start t.size t.aflLen dest entry) fun _ _ => True := by
    intro entry member dest
    unfold Stage2Device.feedUSBField
    split_ifs with outside
    · exact returns_pure fun _ _ => trivial
    · have always := draws entry member (Nat.not_le.mp outside)
      exact returns_bind returns_usbOriginal fun _ => returns_bind (HWInput.returns_feedData always)
        fun _ => returns_pure fun _ _ => trivial
  obtain ⟨dest', u, returned, -⟩ := returns_foldlM body (copyInto dest 0 (min t.size t.aflLen) t.aflData) s trivial
  exact ⟨(dest', u), (t.feed_result dest s).trans returned⟩

theorem sat_usbOriginal {I : Stream → Prop} {entry : (_ : Nat) × HWInput} :
    Sat I (fun _ => True) (Stage2Device.usbOriginal t.file t.start t.size t.aflLen entry) fun _ => I := by
  unfold Stage2Device.usbOriginal
  split_ifs
  · exact sat_bind (sat_emit trivial) fun _ => sat_pure fun _ holds => holds
  · exact sat_pure fun _ holds => holds

theorem drawsAlways_of_returns {dest : Memory} {r : Memory × Stream}
    (returned : (t.feed dest).result (fun _ => 0) = some r) {entry : (_ : Nat) × HWInput} (member : entry ∈ t.fields) :
    t.drawsAlways entry := by
  -- with zeros only, `yes` says yes whenever it can
  have body : ∀ entry ∈ upTo (fun entry => t.size ≤ entry.1 || entry.2.drawnWith t.stage2.mode 0) t.fields, ∀ dest,
      Sat (HWInput.Constant 0) (fun _ => True) (t.stage2.feedUSBField t.file t.start t.size t.aflLen dest entry)
        fun _ s => (t.size ≤ entry.1 || entry.2.drawnWith t.stage2.mode 0) = true ∧ HWInput.Constant 0 s := by
    intro entry _ dest
    unfold Stage2Device.feedUSBField
    split_ifs with outside
    · exact sat_pure fun _ constant => ⟨by simp [outside], constant⟩
    · refine sat_bind t.sat_usbOriginal fun _ => sat_bind HWInput.sat_feedData_constant fun _ => ?_
      exact sat_pure fun _ ⟨drawn, constant⟩ => ⟨by simp [drawn], constant⟩
  rw [feed_result] at returned
  obtain ⟨all, -⟩ := (sat_foldlM body _ (fun _ => 0) fun _ => rfl).2 r.1 r.2 returned
  intro inside
  have drawn := all entry member
  simp only [Bool.or_eq_true, decide_eq_true_eq, Nat.not_le.mpr inside, false_or] at drawn
  exact HWInput.alwaysDrawable_of_drawnWith_zero drawn

theorem defines_iff :
    t.Defines ↔ (∀ entry ∈ t.fields, t.drawsAlways entry) ∧ ∀ i < t.size, coversByte t.stage2 t.aflLen i := by
  have patches : ∀ s, Patches s t.feed _ := fun s => patches_feedFuzzUSBData t.stage2 t.file t.start t.size t.aflLen
  have := nontrivial_byte
  have writes := fun s => (patches s).writes_iff (fun i => i < t.size) fun _ => 0
  unfold Defines
  constructor
  · intro defines
    obtain ⟨⟨r, returned⟩, same⟩ := (writes fun _ => 0).mp (defines _)
    exact ⟨fun entry member => t.drawsAlways_of_returns returned member, fun i inside => ((same i).mp inside).2⟩
  · rintro ⟨draws, covered⟩ s
    exact (writes s).mpr ⟨t.feed_returns draws _ s, fun i => ⟨fun inside => ⟨inside, covered i inside⟩, And.left⟩⟩

/-- A field that begins in the data ends in it. -/
def fitsData (entry : (_ : Nat) × HWInput) : Prop :=
  entry.1 < t.size → entry.1 < t.aflLen → min (entry.1 + entry.2.nBytes) t.size ≤ t.aflLen

/-- The byte of the destination comes from the data or from a field. -/
def isStored (i : Nat) : Prop := i < t.aflLen ∨ ∃ entry ∈ t.fields, t.inField entry i

theorem inside_and_defines_iff :
    (t.ReadsInside ∧ t.Defines) ↔
      (∀ entry ∈ t.fields, t.fitsData entry ∧ t.drawsAlways entry) ∧ ∀ i < t.size, t.isStored i := by
  have fits : ∀ entry : (_ : Nat) × HWInput, t.fitsData entry ↔ (entry.1 < t.size → entry.1 < t.aflLen →
      entry.1 + Stage2Device.fieldSz t.size entry.1 entry.2.nBytes ≤ t.aflLen) := by
    intro entry
    refine forall₂_congr fun inside _ => ?_
    unfold Stage2Device.fieldSz
    split_ifs <;> omega
  have stored : ∀ i < t.size, (coversByte t.stage2 t.aflLen i ↔ t.isStored i) := by
    intro i inside
    simp only [coversByte, isStored, inField, lt_min_iff, inside, and_true, Int.ofNat_lt]
  have reached : (∀ entry ∈ t.fields, t.drawsAlways entry) →
      upTo (usbPasses t.stage2 t.size) t.fields = t.fields := by
    intro draws
    refine upTo_eq_of_all fun entry member => ?_
    by_cases inside : entry.1 < t.size
    · have := HWInput.drawable_of_drawnWith (HWInput.drawnWith_of_alwaysDrawable (draws entry member inside) 0)
      simp [usbPasses, this]
    · simp [usbPasses, Nat.not_lt.mp inside]
  rw [defines_iff, readsInside_iff]
  constructor
  · rintro ⟨reads, draws, covered⟩
    rw [reached draws] at reads
    refine ⟨fun entry member => ⟨(fits entry).mpr (reads entry member), draws entry member⟩, ?_⟩
    exact fun i inside => (stored i inside).mp (covered i inside)
  · rintro ⟨fields, covered⟩
    have draws := fun entry member => (fields entry member).2
    rw [reached draws]
    refine ⟨fun entry member => (fits entry).mp (fields entry member).1, draws, ?_⟩
    exact fun i inside => (stored i inside).mpr (covered i inside)

end USBTransfer

def oneField (nBytes : Fin 8) : HWInput where
  nBytes := nBytes.val + 1
  nBytes_pos := Nat.succ_pos _
  bitsCombinations := []
  dict := [0]
  useModelProb := 50

/-- A transfer of four bytes with one byte of data, and a field at its start. -/
def shortTransfer (nBytes : Fin 8) : USBTransfer where
  stage2 :=
    { dmaInputs := ∅, dmasg := [], mode := .random, mmioInputs := ∅, dmaRegs := ∅, dmaStarts := ∅, level1DmaSet := false
      usbInputs := AList.insert 0 (oneField nBytes) ∅ }
  file := zeroFile ⟨1, Nat.le_of_ble_eq_true rfl⟩
  start := 0
  size := 4
  aflLen := 1
  size_pos := Nat.le_add_left 1 3
  size_lt := Nat.le_of_ble_eq_true rfl
  aflLen_pos := Nat.le_refl 1
  aflLen_lt := Nat.le_of_ble_eq_true rfl
  nBytes_le := fun _ member => List.mem_singleton.mp member ▸ nBytes.isLt

/-- A field of four bytes is read behind the end of the data; with a field of one byte, three bytes
    of the destination are not written. -/
theorem not_inside_shortTransfer : ¬ (shortTransfer 3).ReadsInside ∧ ¬ (shortTransfer 0).Defines := by
  constructor
  · intro inside
    have second := inside (fun _ => 0) (fun _ => 99) ⟨0, 4, 1⟩ (by decide) 1 (by decide)
    exact absurd second.2 (by decide)
  · intro defines
    obtain ⟨log, patch, u, runs, cells⟩ := defines fun _ => 99
    -- the last byte keeps whichever of two values it had
    obtain ⟨b, written⟩ := Option.isSome_iff_exists.mp ((cells 3).mpr (by decide))
    have kept : ∀ byte : UInt8, overlay patch (fun _ => byte) 3 = byte := by
      intro byte
      have returned := (Prod.ext_iff.mp (runs fun _ => byte)).2
      have final := (Prod.ext_iff.mp (Option.some.inj returned)).1
      exact (congrFun final 3).symm
    have zero := kept 0
    have one := kept 1
    simp only [overlay, written, Option.getD_some] at zero one
    exact absurd (zero.symm.trans one) (by decide)

/-! ## The overlay -/

namespace USBTransfer

variable (t : USBTransfer)

/-- `orig` -/
def original (entry : (_ : Nat) × HWInput) : UInt64 :=
  if entry.1 < t.aflLen then
    UInt64.ofNat (loadLE t.file.data (t.start + entry.1) (Stage2Device.fieldSz t.size entry.1 entry.2.nBytes))
  else 0

theorem usbOriginal_result (entry : (_ : Nat) × HWInput) (s : Stream) :
    (Stage2Device.usbOriginal t.file t.start t.size t.aflLen entry).result s = some (t.original entry, s) := by
  by_cases behind : entry.1 < t.aflLen
  · rw [usbOriginal_of_lt (Int.ofNat_lt.mpr behind), original, if_pos behind]
    rfl
  · rw [Stage2Device.usbOriginal, if_neg (fun below => behind (Int.ofNat_lt.mp below)), original, if_neg behind]
    rfl

/-- In a loop over the fields from `s` to `u`, the call of `feedData` for the field at an offset
    returns the choice for that offset. -/
def Draws (choice : Nat → UInt64) : List ((_ : Nat) × HWInput) → Stream → Stream → Prop
  | [], s, u => s = u
  | entry :: rest, s, u =>
    if t.size ≤ entry.1 then Draws choice rest s u
    else ∃ v, (entry.2.feedData t.stage2.mode (t.original entry) : Logged Access Stream UInt64).result s =
      some (choice entry.1, v) ∧ Draws choice rest v u

instance inField_decidable (entry : (_ : Nat) × HWInput) (i : Nat) : Decidable (t.inField entry i) :=
  inferInstanceAs (Decidable (_ ∧ _))

/-- The stores of the loop. -/
def writer (choice : Nat → UInt64) : Writer ((_ : Nat) × HWInput) Nat UInt8 where
  covers entry i := t.inField entry i
  value entry i := byteOf (choice entry.1).toNat (i - entry.1)

variable {t} {choice : Nat → UInt64} {entry : (_ : Nat) × HWInput} {dest : Memory} {s u v : Stream}

theorem write_of_outside (outside : t.size ≤ entry.1) : (t.writer choice).write dest entry = dest := by
  funext i
  have : ¬ t.inField entry i := by
    unfold inField
    omega
  simp [Writer.write, writer, this]

theorem write_eq_storeLE (inside : entry.1 < t.size) :
    (t.writer choice).write dest entry =
      storeLE dest entry.1 (Stage2Device.fieldSz t.size entry.1 entry.2.nBytes) (choice entry.1).toNat := by
  funext i
  have same : t.inField entry i ↔ entry.1 ≤ i ∧ i < entry.1 + Stage2Device.fieldSz t.size entry.1 entry.2.nBytes := by
    unfold inField Stage2Device.fieldSz
    split_ifs <;> omega
  simp [Writer.write, writer, storeLE, same]

theorem feedUSBField_result (inside : entry.1 < t.size) (value : UInt64)
    (drawn : (entry.2.feedData t.stage2.mode (t.original entry) : Logged Access Stream UInt64).result s =
      some (value, v)) :
    (t.stage2.feedUSBField t.file t.start t.size t.aflLen dest entry).result s =
      some (storeLE dest entry.1 (Stage2Device.fieldSz t.size entry.1 entry.2.nBytes) value.toNat, v) := by
  rw [Stage2Device.feedUSBField, if_neg (Nat.not_le.mpr inside), result_bind_of_some (t.usbOriginal_result entry s),
    result_bind_of_some drawn]
  rfl

theorem loop_of_draws {l : List ((_ : Nat) × HWInput)} (draws : t.Draws choice l s u) :
    (l.foldlM (t.stage2.feedUSBField t.file t.start t.size t.aflLen) dest).result s =
      some ((t.writer choice).run l dest, u) := by
  induction l generalizing dest s with
  | nil =>
    obtain rfl : s = u := draws
    rfl
  | cons entry rest ih =>
    rw [List.foldlM_cons, Writer.run, List.foldl_cons]
    unfold Draws at draws
    split_ifs at draws with outside
    · rw [write_of_outside outside, Stage2Device.feedUSBField, if_pos outside]
      exact (result_bind_of_some rfl).trans (ih draws)
    · obtain ⟨v, drawn, draws⟩ := draws
      rw [write_eq_storeLE (Nat.not_le.mp outside),
        result_bind_of_some (feedUSBField_result (Nat.not_le.mp outside) _ drawn)]
      exact ih draws

theorem feed_of_draws (draws : t.Draws choice t.fields s u) (dest : Memory) :
    (t.feed dest).result s =
      some ((t.writer choice).run t.fields (copyInto dest 0 (min t.size t.aflLen) t.aflData), u) :=
  (t.feed_result dest s).trans (loop_of_draws draws)

theorem Draws.congr {choice' : Nat → UInt64} {l : List ((_ : Nat) × HWInput)}
    (same : ∀ entry ∈ l, choice entry.1 = choice' entry.1) (draws : t.Draws choice l s u) : t.Draws choice' l s u := by
  induction l generalizing s with
  | nil => exact draws
  | cons entry rest ih =>
    have later := fun {v} => ih (s := v) fun other member => same other (List.mem_cons_of_mem entry member)
    unfold Draws at draws ⊢
    split_ifs at draws ⊢
    · exact later draws
    · obtain ⟨v, drawn, draws⟩ := draws
      exact ⟨v, same entry List.mem_cons_self ▸ drawn, later draws⟩

/-- A run that returns has drawn some value for each field. -/
theorem draws_of_returned {l : List ((_ : Nat) × HWInput)} (keys : l.NodupKeys) {dest' : Memory}
    (returned : (l.foldlM (t.stage2.feedUSBField t.file t.start t.size t.aflLen) dest).result s = some (dest', u)) :
    ∃ choice, t.Draws choice l s u := by
  induction l generalizing dest s with
  | nil =>
    have ended : some (dest, s) = some (dest', u) := returned
    simp only [Option.some.injEq, Prod.mk.injEq] at ended
    exact ⟨fun _ => 0, ended.2⟩
  | cons entry rest ih =>
    obtain ⟨fresh, keys⟩ := List.nodupKeys_cons.mp keys
    rw [List.foldlM_cons] at returned
    by_cases outside : t.size ≤ entry.1
    · rw [Stage2Device.feedUSBField, if_pos outside] at returned
      rw [result_bind_of_some (a := dest) (t := s) rfl] at returned
      obtain ⟨choice, draws⟩ := ih keys returned
      refine ⟨choice, ?_⟩
      rw [Draws, if_pos outside]
      exact draws
    · have inside := Nat.not_le.mp outside
      cases drawn : (entry.2.feedData t.stage2.mode (t.original entry) : Logged Access Stream UInt64).result s with
      | none =>
        have died : (t.stage2.feedUSBField t.file t.start t.size t.aflLen dest entry).result s = none := by
          rw [Stage2Device.feedUSBField, if_neg outside, result_bind_of_some (t.usbOriginal_result entry s)]
          exact result_bind_of_none drawn
        rw [result_bind_of_none died] at returned
        cases returned
      | some value =>
        obtain ⟨value, v⟩ := value
        rw [result_bind_of_some (feedUSBField_result inside value drawn)] at returned
        obtain ⟨choice, draws⟩ := ih keys returned
        refine ⟨Function.update choice entry.1 value, ?_⟩
        rw [Draws, if_neg outside, Function.update_self]
        refine ⟨v, drawn, draws.congr fun other member => ?_⟩
        have different : other.1 ≠ entry.1 := fun same => fresh (same ▸ List.mem_keys_of_mem member)
        rw [Function.update_of_ne different]

theorem byteOf_original (small : entry.2.nBytes ≤ 8) (behind : entry.1 < t.aflLen) {i : Nat}
    (covered : t.inField entry i) : byteOf (t.original entry).toNat (i - entry.1) = t.aflData i := by
  obtain ⟨low, high⟩ := covered
  have width : Stage2Device.fieldSz t.size entry.1 entry.2.nBytes ≤ 8 ∧
      i - entry.1 < Stage2Device.fieldSz t.size entry.1 entry.2.nBytes := by
    unfold Stage2Device.fieldSz
    split_ifs <;> omega
  have fits : loadLE t.file.data (t.start + entry.1) (Stage2Device.fieldSz t.size entry.1 entry.2.nBytes) <
      UInt64.size :=
    (loadLE_lt _ _ _).trans_le (Nat.pow_le_pow_right (show 0 < 256 by omega) width.1)
  rw [original, if_pos behind, UInt64.toNat_ofNat_of_lt' fits, byteOf_loadLE _ _ width.2, aflData]
  congr 1
  omega

/-- The transfer with the fields in another order. -/
def reordered (t : USBTransfer) (order : AList fun _ : Nat => HWInput) (same : t.fields.Perm order.entries) :
    USBTransfer :=
  { t with
    stage2 := { t.stage2 with usbInputs := order }
    nBytes_le := fun entry member => t.nBytes_le entry (same.mem_iff.mpr member) }

end USBTransfer

/-- What a transfer leaves in `dest[0 .. size)`. -/
structure TouchesOnlyFields (t : USBTransfer) : Prop where
  /-- The bytes outside of the fields are those of the fuzzer. -/
  outside : ∀ dest s dest' u, (t.feed dest).result s = some (dest', u) →
    ∀ i < t.size, (∀ entry ∈ t.fields, ¬ t.inField entry i) → dest' i = t.aflData i
  /-- Every run that returns makes some choice for each field, the value of its call of `feedData`. -/
  choices : ∀ dest s dest' u, (t.feed dest).result s = some (dest', u) → ∃ choice, t.Draws choice t.fields s u
  /-- With the originals, all bytes are those of the fuzzer. -/
  kept : ∀ choice dest s u, t.Draws choice t.fields s u →
    (∀ entry ∈ t.fields, entry.1 < t.size → choice entry.1 = t.original entry) →
      ∃ dest', (t.feed dest).result s = some (dest', u) ∧ ∀ i < t.size, dest' i = t.aflData i
  /-- Fields that do not overlap can be visited in any order. -/
  unordered : (∀ a ∈ t.fields, ∀ b ∈ t.fields, a ≠ b → ∀ i, ¬ (t.inField a i ∧ t.inField b i)) →
    ∀ order same choice dest s u s' u', t.Draws choice t.fields s u →
      (t.reordered order same).Draws choice order.entries s' u' →
        ∃ dest', (t.feed dest).result s = some (dest', u) ∧
          ((t.reordered order same).feed dest).result s' = some (dest', u')

/-- A transfer for which there is enough data. -/
structure CoveredTransfer extends USBTransfer where
  size_le : size ≤ aflLen

namespace CoveredTransfer

open USBTransfer

variable (t : CoveredTransfer)

theorem copied (dest : Memory) {i : Nat} (inside : i < t.size) :
    copyInto dest 0 (min t.size t.aflLen) t.aflData i = t.aflData i := by
  simp [copyInto, inside, inside.trans_le t.size_le]

theorem touchesOnlyFields : TouchesOnlyFields t.toUSBTransfer := by
  have choices : ∀ dest s dest' u, (t.feed dest).result s = some (dest', u) → ∃ choice, t.Draws choice t.fields s u :=
    fun dest s dest' u returned =>
      draws_of_returned t.stage2.usbInputs.nodupKeys ((t.feed_result dest s).symm.trans returned)
  refine ⟨?_, choices, ?_, ?_⟩
  · intro dest s dest' u returned i inside free
    obtain ⟨choice, draws⟩ := choices dest s dest' u returned
    obtain ⟨final, -⟩ := Prod.mk.injEq .. ▸ Option.some.inj (returned.symm.trans (feed_of_draws draws dest))
    have last : (t.writer choice).last t.fields i = none :=
      (t.writer choice).last_eq_none_of_uncovered fun entry member => by simpa [writer] using free entry member
    rw [final, Writer.run_eq, last]
    exact t.copied dest inside
  · intro choice dest s u draws kept
    refine ⟨_, feed_of_draws draws dest, fun i inside => ?_⟩
    rw [Writer.run_eq]
    cases last : (t.writer choice).last t.fields i with
    | none => exact t.copied dest inside
    | some entry =>
      -- the field that is written last holds the byte it was read from
      have member := (t.writer choice).mem_of_last last
      have covered : t.inField entry i := of_decide_eq_true ((t.writer choice).covers_of_last last)
      have starts : entry.1 < t.size := covered.1.trans_lt inside
      show byteOf (choice entry.1).toNat (i - entry.1) = t.aflData i
      rw [kept entry member starts]
      exact byteOf_original (t.nBytes_le entry member) (starts.trans_le t.size_le) covered
  · intro disjoint order same choice dest s u s' u' draws draws'
    refine ⟨_, feed_of_draws draws dest, (feed_of_draws draws' dest).trans ?_⟩
    have equal := (t.writer choice).run_perm same (fun a first b second different i both =>
      disjoint a first b second different i ⟨of_decide_eq_true both.1, of_decide_eq_true both.2⟩)
      (copyInto dest 0 (min t.size t.aflLen) t.aflData)
    rw [equal]
    rfl

def headerLen : Nat := 4

/-- A transfer of four bytes with a field at its start, and data for all of them. -/
def headerTransfer (nBytes : Fin 8) : CoveredTransfer where
  toUSBTransfer :=
    { shortTransfer nBytes with
      file := zeroFile ⟨headerLen, by decide⟩
      aflLen := headerLen
      aflLen_pos := by decide
      aflLen_lt := by decide }
  size_le := show 4 ≤ headerLen by decide

theorem touchesOnlyFields_headerTransfer :
    TouchesOnlyFields (headerTransfer 1).toUSBTransfer ∧
      ∀ i < 4, (∃ entry ∈ (headerTransfer 1).fields, (headerTransfer 1).inField entry i) ↔ i < 2 :=
  ⟨(headerTransfer 1).touchesOnlyFields, by decide⟩

end CoveredTransfer

end DevFuzz.Aplib
