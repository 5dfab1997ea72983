import DevFuzz.Lib.Bytes
import DevFuzz.Lib.Writes
import DevFuzz.Stage2.DMA

/-! # Guest memory when the models keep the data

A field is written on top of the raw data even when `feedData` returns the value that it was
given.  That value is one byte of the data, so a field of several bytes gets
zeros behind the first one.
-/

namespace DevFuzz.Stage2

open DevFuzz.Lib DevFuzz.Lib.Bytes DevFuzz.Lib.Logged

/-! ## Guest memory -/

/-- How far `x` lies behind `base`; addresses wrap around. -/
def offsetFrom (base x : UInt64) : Nat := (x - base).toNat

def Region.fieldAddr (region : Region) (field : Field) (i : Nat) : UInt64 := region.addr + UInt64.ofNat (field.place i)

/-- `writePhyMemGeneric`, for the events that call it. -/
def eventWrites (data : Nat → UInt8) : Writer Event UInt64 UInt8 where
  covers
    | .bulk region _, x => offsetFrom region.addr x < region.len
    | .fetch _, _ => false
    | .apply region field i _, x => offsetFrom (region.fieldAddr field i) x < field.input.nBytes
  value
    | .bulk region start, x => data (start + offsetFrom region.addr x)
    | .fetch _, _ => 0
    | .apply region field i value, x => byteOf value.toNat (offsetFrom (region.fieldAddr field i) x)

/-- Every call of `feedData` returns what it was given: the byte that is fetched right before. -/
def Event.Keeps (data : Nat → UInt8) : Event → Event → Prop
  | .fetch index, .apply _ _ _ value => value = (data index).toUInt64
  | _, _ => True

instance (data : Nat → UInt8) : DecidableRel (Event.Keeps data)
  | .fetch index, .apply _ _ _ value => inferInstanceAs (Decidable (value = (data index).toUInt64))
  | .fetch _, .fetch _ | .fetch _, .bulk _ _ | .bulk _ _, _ | .apply _ _ _ _, _ => inferInstanceAs (Decidable True)

def Kept (data : Nat → UInt8) (log : List Event) : Prop := log.IsChain (Event.Keeps data)

instance (data : Nat → UInt8) (log : List Event) : Decidable (Kept data log) :=
  inferInstanceAs (Decidable (log.IsChain (Event.Keeps data)))

/-- A run in which the models keep the data, on regions that the data is large enough for. -/
structure KeptRun where
  model : Stage2HWModel
  data : Nat → UInt8
  dataSz : Nat
  stream : Stream
  large : ∀ region ∈ model.dmasg, region.len ≤ dataSz
  sizes : ∀ field ∈ model.fields, field.input.nBytes ≤ 8
  inside : ∀ field ∈ model.fields, ∀ region ∈ model.dmasg, ∀ i < loopCount region.len field.model.structLen,
    field.place i + field.input.nBytes ≤ region.len
  returned : ((model.feedFuzzDMAData data dataSz true).result stream).isSome = true
  kept : Kept data ((model.feedFuzzDMAData data dataSz true).log stream)

def KeptRun.memoryAfter (r : KeptRun) (useModel : Bool) (memory : UInt64 → UInt8) : UInt64 → UInt8 :=
  (eventWrites r.data).run ((r.model.feedFuzzDMAData r.data r.dataSz useModel).log r.stream) memory

/-- Guest memory is as it is without the models. -/
def KeptRun.Untouched (r : KeptRun) : Prop := ∀ memory, r.memoryAfter true memory = r.memoryAfter false memory

/-! ## The writes of a run -/

inductive Write where
  | bulk (w : Window)
  | field (w : Window) (field : Field) (i : Nat)

def Write.window : Write → Window
  | bulk w => w
  | field w _ _ => w

/-- What is written when the data is kept: a field gets the byte at its place, and zeros. -/
def keptWrites (data : Nat → UInt8) : Writer Write UInt64 UInt8 where
  covers
    | .bulk w, x => offsetFrom w.region.addr x < w.region.len
    | .field w field i, x => offsetFrom (w.region.fieldAddr field i) x < field.input.nBytes
  value
    | .bulk w, x => data (w.start + offsetFrom w.region.addr x)
    | .field w field i, x =>
      byteOf (data (w.start + field.place i)).toUInt64.toNat (offsetFrom (w.region.fieldAddr field i) x)

def Stage2HWModel.windowWrites (model : Stage2HWModel) (w : Window) : List Write :=
  .bulk w :: model.fields.flatMap fun field =>
    (List.range (loopCount w.region.len field.model.structLen)).map (.field w field)

section

variable {data : Nat → UInt8}

/-- The computation makes the given writes, if it returns and the data is kept. -/
def Makes (data : Nat → UInt8) (x : Logged Event Stream Unit) (writes : List Write) : Prop :=
  ∀ s, (x.result s).isSome = true → Kept data (x.log s) → (eventWrites data).run (x.log s) = (keptWrites data).run writes

theorem makes_bind {x y : Logged Event Stream Unit} {a b : List Write} (first : Makes data x a) (second : Makes data y b) :
    Makes data (x >>= fun _ => y) (a ++ b) := by
  intro s returned kept
  cases ended : x.result s with
  | none =>
    rw [result_bind_of_none ended] at returned
    cases returned
  | some result =>
    obtain ⟨⟨⟩, t⟩ := result
    rw [result_bind_of_some ended] at returned
    rw [log_bind_of_some ended] at kept ⊢
    obtain ⟨early, late, -⟩ := List.isChain_append.mp kept
    funext memory
    rw [Writer.run_append, Writer.run_append, first s (by rw [ended]; rfl) early, second t returned late]

theorem makes_pure : Makes data (pure ()) [] := fun _ _ _ => rfl

theorem makes_forEach {α : Type} {f : α → Logged Event Stream Unit} {writes : α → List Write} {l : List α}
    (each : ∀ a ∈ l, Makes data (f a) (writes a)) : Makes data (forEach f l) (l.flatMap writes) := by
  induction l with
  | nil => exact makes_pure
  | cons a rest ih =>
    exact makes_bind (each a List.mem_cons_self) (ih fun b member => each b (List.mem_cons_of_mem a member))

theorem makes_bulk (w : Window) : Makes data (emit (.bulk w.region w.start)) [.bulk w] := fun _ _ _ => rfl

theorem makes_feedCopy (mode : Mode) (w : Window) (field : Field) (i : Nat) :
    Makes data (feedCopy data mode w.region w.start false field i) [.field w field i] := by
  intro s returned kept
  have fetched : (fetchOriginal data false (w.start + field.place i)).run s =
      ([.fetch (w.start + field.place i)], some ((data (w.start + field.place i)).toUInt64, s)) := rfl
  rcases field.input.feedData_apply Event mode (data (w.start + field.place i)).toUInt64 s with
    ⟨value, fed, -⟩ | ⟨died, -⟩
  · have log : (feedCopy data mode w.region w.start false field i).log s =
        [.fetch (w.start + field.place i), .apply w.region field i value] := by
      rw [Logged.log, feedCopy, run_bind_of_some fetched, run_bind_of_some fed]
      rfl
    rw [log] at kept ⊢
    obtain rfl : value = (data (w.start + field.place i)).toUInt64 := (List.isChain_cons_cons.mp kept).1
    rfl
  · have none : (feedCopy data mode w.region w.start false field i).result s = none := by
      rw [result, feedCopy, run_bind_of_some fetched, run_bind_of_none died]
    rw [none] at returned
    cases returned

theorem makes_feedWindow {model : Stage2HWModel} {dataSz : Nat} {w : Window} (room : w.overflowed dataSz = false) :
    Makes data (feedWindow model data dataSz true w) (model.windowWrites w) := by
  rw [feedWindow, room]
  refine makes_bind (a := [.bulk w]) (makes_bulk w) (makes_forEach fun field _ => ?_)
  have copies : Makes data (feedField data model.mode w.region w.start false field) _ :=
    makes_forEach fun i _ => makes_feedCopy model.mode w field i
  rwa [← List.map_eq_flatMap] at copies

theorem run_bulk (ws : List Window) :
    (eventWrites data).run (ws.map fun w => .bulk w.region w.start) = (keptWrites data).run (ws.map .bulk) := by
  funext memory
  rw [Writer.run, Writer.run, List.foldl_map, List.foldl_map]
  rfl

/-- A window has its region from the list, and the data is large enough for it. -/
theorem mem_windows {dataSz pos : Nat} {regions : List Region} (large : ∀ region ∈ regions, region.len ≤ dataSz)
    {w : Window} (member : w ∈ windows dataSz pos regions) : w.region ∈ regions ∧ w.overflowed dataSz = false := by
  induction regions generalizing pos with
  | nil => cases member
  | cons region rest ih =>
    rcases List.mem_cons.mp member with rfl | later
    · refine ⟨List.mem_cons_self, ?_⟩
      have := large region List.mem_cons_self
      simp only [Window.overflowed, decide_eq_false_iff_not]
      split_ifs <;> omega
    · obtain ⟨known, room⟩ := ih (fun r mem => large r (List.mem_cons_of_mem region mem)) later
      exact ⟨List.mem_cons_of_mem region known, room⟩

end

/-! ## The last write to a byte -/

theorem offsetFrom_fieldAddr {region : Region} {field : Field} {i : Nat} {x : UInt64}
    (fits : field.place i + field.input.nBytes ≤ region.len)
    (inField : offsetFrom (region.fieldAddr field i) x < field.input.nBytes) :
    offsetFrom region.addr x = field.place i + offsetFrom (region.fieldAddr field i) x := by
  have small := region.len_lt
  have split : x - region.addr = UInt64.ofNat (field.place i) + (x - region.fieldAddr field i) := by
    rw [Region.fieldAddr]
    grind
  have place : field.place i < 18446744073709551616 := by omega
  rw [offsetFrom, split]
  unfold offsetFrom at inField ⊢
  rw [UInt64.toNat_add, UInt64.toNat_ofNat_of_lt' place]
  exact Nat.mod_eq_of_lt (by omega)

section

variable {data : Nat → UInt8} {model : Stage2HWModel} {w : Window}
  (inside : ∀ field ∈ model.fields, ∀ i < loopCount w.region.len field.model.structLen,
    field.place i + field.input.nBytes ≤ w.region.len)

theorem mem_windowWrites {e : Write} (member : e ∈ model.windowWrites w) :
    e = .bulk w ∨ ∃ field ∈ model.fields, ∃ i < loopCount w.region.len field.model.structLen, e = .field w field i := by
  refine (List.mem_cons.mp member).imp id fun later => ?_
  obtain ⟨field, known, copy⟩ := List.mem_flatMap.mp later
  obtain ⟨i, bound, rfl⟩ := List.mem_map.mp copy
  exact ⟨field, known, i, List.mem_range.mp bound, rfl⟩

include inside

theorem covers_bulk {e : Write} (member : e ∈ model.windowWrites w) {x : UInt64}
    (covered : (keptWrites data).covers e x = true) : (keptWrites data).covers (.bulk w) x = true := by
  rcases mem_windowWrites member with rfl | ⟨field, known, i, bound, rfl⟩
  · exact covered
  · have inField := of_decide_eq_true covered
    have fits := inside field known i bound
    have place := offsetFrom_fieldAddr fits inField
    exact decide_eq_true (by omega)

theorem last_windowWrites (x : UInt64) :
    (keptWrites data).last [.bulk w] x = ((keptWrites data).last (model.windowWrites w) x).map fun e => .bulk e.window := by
  rw [Writer.last_singleton]
  cases found : (keptWrites data).last (model.windowWrites w) x with
  | none =>
    -- the data is the first write of the window
    rw [Stage2HWModel.windowWrites, ← List.singleton_append, Writer.last_append, Option.or_eq_none_iff,
      Writer.last_singleton] at found
    exact found.2
  | some e =>
    have member := Writer.mem_of_last _ found
    have sameWindow : e.window = w := by
      rcases mem_windowWrites member with rfl | ⟨field, -, i, -, rfl⟩ <;> rfl
    rw [if_pos (covers_bulk inside member (Writer.covers_of_last _ found)), Option.map_some, sameWindow]

end

/-- Without the models, the last write to a byte is the data for the window that the last write is for with them. -/
theorem last_bulk {data : Nat → UInt8} {model : Stage2HWModel} {ws : List Window}
    (inside : ∀ w ∈ ws, ∀ field ∈ model.fields, ∀ i < loopCount w.region.len field.model.structLen,
      field.place i + field.input.nBytes ≤ w.region.len) (x : UInt64) :
    (keptWrites data).last (ws.map .bulk) x =
      ((keptWrites data).last (ws.flatMap model.windowWrites) x).map fun e => .bulk e.window := by
  induction ws with
  | nil => rfl
  | cons w rest ih =>
    rw [List.map_cons, ← List.singleton_append, Writer.last_append, List.flatMap_cons, Writer.last_append,
      ih fun v member => inside v (List.mem_cons_of_mem w member),
      last_windowWrites (inside w List.mem_cons_self), Option.map_or]

/-! ## Comparing the two memories -/

namespace KeptRun

variable (r : KeptRun)

def windows : List Window := Stage2.windows r.dataSz 0 r.model.dmasg

def writes : List Write := r.windows.flatMap r.model.windowWrites

theorem inside_windows : ∀ w ∈ r.windows, ∀ field ∈ r.model.fields, ∀ i < loopCount w.region.len field.model.structLen,
    field.place i + field.input.nBytes ≤ w.region.len := fun w member field known =>
  r.inside field known w.region (mem_windows r.large member).1

theorem memoryAfter_true : r.memoryAfter true = (keptWrites r.data).run r.writes := by
  have all : Makes r.data (r.model.feedFuzzDMAData r.data r.dataSz true) r.writes := by
    rw [Stage2HWModel.feedFuzzDMAData, feedRegions_eq]
    exact makes_forEach fun w member => makes_feedWindow (mem_windows r.large member).2
  exact all r.stream r.returned r.kept

theorem memoryAfter_false : r.memoryAfter false = (keptWrites r.data).run (r.windows.map .bulk) := by
  have room : ∀ w ∈ r.windows, w.overflowed r.dataSz = false := fun w member => (mem_windows r.large member).2
  have log : (r.model.feedFuzzDMAData r.data r.dataSz false).log r.stream =
      r.windows.map fun w => .bulk w.region w.start := by
    have all : r.windows.filter (fun w => !w.overflowed r.dataSz) = r.windows :=
      List.filter_eq_self.mpr fun w member => by rw [room w member]; rfl
    rw [Stage2HWModel.feedFuzzDMAData, feedRegions_eq, Logged.log, run_feedWindows_raw]
    exact congrArg (List.map _) all
  rw [← run_bulk, ← log]
  rfl

theorem byteOf_toUInt64 (byte : UInt8) (j : Nat) : byteOf byte.toUInt64.toNat j = if j = 0 then byte else 0 := by
  have small := byte.toNat_lt
  rw [byteOf, UInt8.toNat_toUInt64]
  split_ifs with first
  · rw [first, Nat.pow_zero, Nat.div_one, UInt8.ofNat_toNat]
  · have large : 256 ^ 1 ≤ 256 ^ j := Nat.pow_le_pow_right (by decide) (Nat.one_le_iff_ne_zero.mpr first)
    rw [Nat.div_eq_of_lt (by omega)]
    rfl

/-- A field that is the last write to a byte has the byte, and lies in its window. -/
theorem field_of_last {w : Window} {field : Field} {i : Nat} {x : UInt64}
    (last : (keptWrites r.data).last r.writes x = some (.field w field i)) :
    field ∈ r.model.fields ∧ field.place i + field.input.nBytes ≤ w.region.len ∧
      offsetFrom (w.region.fieldAddr field i) x < field.input.nBytes := by
  obtain ⟨v, member, written⟩ := List.mem_flatMap.mp (Writer.mem_of_last _ last)
  obtain ⟨field', known, i', bound, same⟩ := (mem_windowWrites written).resolve_left nofun
  cases same
  exact ⟨known, r.inside_windows w member field known i bound, of_decide_eq_true (Writer.covers_of_last _ last)⟩

/-- What the two runs leave in a byte that a field was last written to. -/
theorem value_field_eq_iff {w : Window} {field : Field} {i : Nat} {x : UInt64}
    (last : (keptWrites r.data).last r.writes x = some (.field w field i)) :
    (keptWrites r.data).value (.field w field i) x = (keptWrites r.data).value (.bulk w) x ↔
      offsetFrom (w.region.fieldAddr field i) x = 0 ∨ r.data (w.start + offsetFrom w.region.addr x) = 0 := by
  obtain ⟨-, fits, inField⟩ := r.field_of_last last
  have place := offsetFrom_fieldAddr fits inField
  change byteOf (r.data (w.start + field.place i)).toUInt64.toNat _ = r.data (w.start + offsetFrom w.region.addr x) ↔ _
  rw [byteOf_toUInt64]
  split_ifs with first
  · rw [place, first, Nat.add_zero]
    exact ⟨fun _ => .inl rfl, fun _ => rfl⟩
  · rw [eq_comm, or_iff_right first]

/-- Guest memory is untouched exactly when the data is zero wherever a byte of a field behind its first one was written
    last; this is so when all fields are bytes. -/
theorem untouched_iff :
    (r.Untouched ↔
      ∀ x w field i, (keptWrites r.data).last r.writes x = some (.field w field i) →
        offsetFrom (w.region.fieldAddr field i) x = 0 ∨ r.data (w.start + offsetFrom w.region.addr x) = 0) ∧
    ((∀ field ∈ r.model.fields, field.input.nBytes = 1) → r.Untouched) := by
  have exact_iff : r.Untouched ↔
      ∀ x w field i, (keptWrites r.data).last r.writes x = some (.field w field i) →
        offsetFrom (w.region.fieldAddr field i) x = 0 ∨ r.data (w.start + offsetFrom w.region.addr x) = 0 := by
    have raw : ∀ x, (keptWrites r.data).last (r.windows.map .bulk) x =
        ((keptWrites r.data).last r.writes x).map fun e => .bulk e.window := last_bulk r.inside_windows
    rw [Untouched, r.memoryAfter_true, r.memoryAfter_false]
    constructor
    · intro same x w field i last
      have here := congrFun (same fun _ => 0) x
      rw [Writer.run_eq, Writer.run_eq, raw, last] at here
      exact (r.value_field_eq_iff last).mp here
    · intro zero memory
      funext x
      rw [Writer.run_eq, Writer.run_eq, raw]
      cases last : (keptWrites r.data).last r.writes x with
      | none => rfl
      | some e =>
        cases e with
        | bulk w => rfl
        | field w field i => exact (r.value_field_eq_iff last).mpr (zero x w field i last)
  refine ⟨exact_iff, fun bytes => exact_iff.mpr fun x w field i last => .inl ?_⟩
  obtain ⟨known, -, inField⟩ := r.field_of_last last
  rw [bytes field known] at inField
  exact Nat.lt_one_iff.mp inField

end KeptRun

/-! ## A field of four bytes -/

def wordInput : HWInput := ⟨4, Nat.succ_pos _, [], [0], 0⟩

def wordModel : Stage2HWModel where
  dmaInputs := AList.singleton 4 ⟨4, 4, Nat.succ_pos _, by decide, AList.singleton 0 wordInput⟩
  dmasg := [⟨0x1000, 4, by decide⟩]
  mode := .random

/-- The random numbers of this run let `feedData` return the original. -/
def wordRun : KeptRun where
  model := wordModel
  data i := [0x11, 0x22, 0x33, 0x44].getD i 0
  dataSz := 4
  stream _ := 99
  large := by decide
  sizes := by decide
  inside := by decide
  returned := by decide
  kept := by decide

/-- The second byte of the field is `0x22` in the data, and zero in memory. -/
theorem not_untouched_word : ¬ wordRun.Untouched := by
  intro untouched
  have same := congrFun (untouched fun _ => 0) 0x1001
  exact absurd same (by decide)

end DevFuzz.Stage2
