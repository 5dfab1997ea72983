import DevFuzz.Wrappers.Model

/-! # What the tables hold

The collection of wrappers returns for every module.  Each entry of the table is
carried up the calls from a read, and the table is closed: a caller that an entry is
carried to has an entry.
-/

namespace DevFuzz.Wrappers

open DevFuzz.Lib

section

variable {φ κ : Type}

/-! ## Entries -/

/-- The calls that reach a function, directly or through a pointer that it is stored in. -/
def Module.CallSite (M : Module φ κ) (func : φ) (call : Call φ) : Prop :=
  call ∈ M.funcCallSites func ∨
    ∃ site ∈ M.indirectCalls, site.toCall = call ∧ ∃ key ∈ M.func2KMI func, site.key = some key

/-- The entries that a function may get. -/
inductive Module.Carried (M : Module φ κ) : φ → Wrapper → Prop where
  | read {r : IoRead φ} {w : Wrapper} (mem : r ∈ M.callIoReads) (returned : r.returned = true)
      (starts : r.wrapper? = some w) : M.Carried r.func w
  | call {func : φ} {w w' : Wrapper} {call : Call φ} (callee : M.Carried func w) (site : M.CallSite func call)
      (returned : call.returned = true) (up : w.inCaller call.args = some w') : M.Carried call.caller w'

variable [LinearOrder φ] [DecidableEq κ]

namespace Tables

/-- The function is in the set of the key. -/
def Stored (t : Tables φ κ) (key : κ) (func : φ) : Prop :=
  ∃ funcs, t.kmi2Funcs.lookup key = some funcs ∧ func ∈ funcs

def Inhabited (t : Tables φ κ) : Prop := ∀ key ∈ t.kmi2Funcs, ∃ func, t.Stored key func

theorem stored_insertFunc {t : Tables φ κ} {func g : φ} {key k : κ} :
    (insertFunc func t key).Stored k g ↔ (k = key ∧ g = func) ∨ t.Stored k g := by
  simp only [Stored, insertFunc]
  by_cases same : k = key
  · subst same
    rw [AList.lookup_insert]
    cases t.kmi2Funcs.lookup k <;> simp
  · rw [AList.lookup_insert_ne same]
    simp [same]

theorem inhabited_insertFunc {t : Tables φ κ} (inhabited : t.Inhabited) (func : φ) (key : κ) :
    (insertFunc func t key).Inhabited := by
  intro k mem
  rcases (AList.mem_insert _).mp mem with rfl | mem
  · exact ⟨func, stored_insertFunc.mpr (.inl ⟨rfl, rfl⟩)⟩
  · obtain ⟨g, stored⟩ := inhabited k mem
    exact ⟨g, stored_insertFunc.mpr (.inr stored)⟩

theorem foldl_insertFunc_wrappers (func : φ) (keys : List κ) (t : Tables φ κ) :
    (keys.foldl (insertFunc func) t).mmioReadWrappers = t.mmioReadWrappers := by
  induction keys generalizing t with
  | nil => rfl
  | cons key rest ih => exact ih (insertFunc func t key)

theorem stored_foldl_insertFunc {func g : φ} {keys : List κ} {t : Tables φ κ} {k : κ} :
    (keys.foldl (insertFunc func) t).Stored k g ↔ (k ∈ keys ∧ g = func) ∨ t.Stored k g := by
  induction keys generalizing t with
  | nil => simp
  | cons key rest ih =>
    rw [List.foldl_cons, ih, stored_insertFunc, List.mem_cons]
    tauto

theorem inhabited_foldl_insertFunc {func : φ} {keys : List κ} {t : Tables φ κ} (inhabited : t.Inhabited) :
    (keys.foldl (insertFunc func) t).Inhabited := by
  induction keys generalizing t with
  | nil => exact inhabited
  | cons key rest ih => exact ih (inhabited_insertFunc inhabited func key)

end Tables

namespace Module

variable {M : Module φ κ}

/-! ## What every step of the collection keeps -/

structure Sound (M : Module φ κ) (t : Tables φ κ) : Prop where
  wrappers : ∀ func vec, t.mmioReadWrappers.lookup func = some vec → ∃ w, M.Carried func w ∧ vec = w.toList
  inhabited : t.Inhabited
  stored : ∀ key func, t.Stored key func → key ∈ M.func2KMI func ∧ func ∈ t.mmioReadWrappers

/-- The function has gone through the slicing. -/
def Recorded (M : Module φ κ) (t : Tables φ κ) (func : φ) : Prop :=
  func ∈ t.mmioReadWrappers ∧ ∀ key ∈ M.func2KMI func, t.Stored key func

theorem Sound.empty : M.Sound (Tables.empty : Tables φ κ) := by
  refine ⟨fun func vec found => ?_, fun key mem => absurd mem (AList.notMem_empty key), ?_⟩
  · rw [Tables.empty, AList.lookup_empty] at found
    cases found
  · rintro key func ⟨funcs, found, -⟩
    rw [Tables.empty, AList.lookup_empty] at found
    cases found

theorem Sound.wrapper {t : Tables φ κ} (sound : M.Sound t) {func : φ} (known : func ∈ t.mmioReadWrappers) :
    ∃ w, t.wrapper? func = some w ∧ M.Carried func w := by
  obtain ⟨vec, found⟩ := Option.isSome_iff_exists.mp (AList.lookup_isSome.mpr known)
  obtain ⟨w, carried, rfl⟩ := sound.wrappers func vec found
  refine ⟨w, ?_, carried⟩
  rw [Tables.wrapper?, found]
  rfl

theorem Sound.setWrapper {t : Tables φ κ} (sound : M.Sound t) {func : φ} {w : Wrapper} (carried : M.Carried func w) :
    M.Sound (t.setWrapper func w) := by
  refine ⟨fun g vec found => ?_, sound.inhabited, fun key g stored => ?_⟩
  · by_cases same : g = func
    · subst same
      rw [Tables.setWrapper, AList.lookup_insert, Option.some.injEq] at found
      exact ⟨w, carried, found.symm⟩
    · rw [Tables.setWrapper, AList.lookup_insert_ne same] at found
      exact sound.wrappers g vec found
  · obtain ⟨member, known⟩ := sound.stored key g stored
    exact ⟨member, (AList.mem_insert _).mpr (.inr known)⟩

theorem slicing_visit_wrappers (func : φ) (w : Wrapper) (t : Tables φ κ) :
    (M.slicing.visit func w t).mmioReadWrappers = t.mmioReadWrappers.insert func w.toList :=
  Tables.foldl_insertFunc_wrappers func _ _

theorem slicing_visit_stored {func g : φ} {w : Wrapper} {t : Tables φ κ} {key : κ} :
    (M.slicing.visit func w t).Stored key g ↔ (key ∈ M.func2KMI func ∧ g = func) ∨ t.Stored key g :=
  Tables.stored_foldl_insertFunc

theorem Sound.visit {t : Tables φ κ} (sound : M.Sound t) {func : φ} {w : Wrapper} (carried : M.Carried func w) :
    M.Sound (M.slicing.visit func w t) := by
  have written := sound.setWrapper carried
  refine ⟨fun g vec found => ?_, Tables.inhabited_foldl_insertFunc written.inhabited, fun key g stored => ?_⟩
  · rw [slicing_visit_wrappers] at found
    exact written.wrappers g vec found
  · rw [slicing_visit_wrappers]
    rcases slicing_visit_stored.mp stored with ⟨member, rfl⟩ | stored
    · exact ⟨member, (AList.mem_insert _).mpr (.inl rfl)⟩
    · exact written.stored key g stored

theorem Recorded.visit {t : Tables φ κ} {g : φ} (recorded : M.Recorded t g) (func : φ) (w : Wrapper) :
    M.Recorded (M.slicing.visit func w t) g := by
  refine ⟨?_, fun key member => slicing_visit_stored.mpr (.inr (recorded.2 key member))⟩
  rw [slicing_visit_wrappers]
  exact (AList.mem_insert _).mpr (.inr recorded.1)

theorem recorded_visit (func : φ) (w : Wrapper) (t : Tables φ κ) : M.Recorded (M.slicing.visit func w t) func := by
  refine ⟨?_, fun key member => slicing_visit_stored.mpr (.inl ⟨member, rfl⟩)⟩
  rw [slicing_visit_wrappers]
  exact (AList.mem_insert _).mpr (.inl rfl)

/-! ## The slicing -/

/-- What the slicing makes of the tables `start` when it has seen `seen`. -/
structure Extends (M : Module φ κ) (start : Tables φ κ) (seen : List φ) (t : Tables φ κ) : Prop where
  sound : M.Sound t
  recorded : ∀ func ∈ seen, M.Recorded t func
  keeps : ∀ func ∈ start.mmioReadWrappers, func ∈ t.mmioReadWrappers
  keepsRecorded : ∀ func, M.Recorded start func → M.Recorded t func
  only : ∀ func ∈ t.mmioReadWrappers, func ∈ start.mmioReadWrappers ∨ func ∈ seen

theorem Extends.start {t : Tables φ κ} (sound : M.Sound t) : M.Extends t [] t :=
  ⟨sound, nofun, fun _ => id, fun _ => id, fun _ => .inl⟩

theorem Extends.visit {start t : Tables φ κ} {seen : List φ} (ext : M.Extends start seen t) {func : φ} {w : Wrapper}
    (carried : M.Carried func w) : M.Extends start (func :: seen) (M.slicing.visit func w t) := by
  refine ⟨ext.sound.visit carried, fun g mem => ?_, fun g mem => ?_, fun g recorded => ?_, fun g mem => ?_⟩
  · rcases List.mem_cons.mp mem with rfl | mem
    · exact recorded_visit g w t
    · exact (ext.recorded g mem).visit func w
  · rw [slicing_visit_wrappers]
    exact (AList.mem_insert _).mpr (.inr (ext.keeps g mem))
  · exact (ext.keepsRecorded g recorded).visit func w
  · rw [slicing_visit_wrappers] at mem
    rcases (AList.mem_insert _).mp mem with rfl | mem
    · exact .inr List.mem_cons_self
    · exact (ext.only g mem).imp id (List.mem_cons_of_mem func)

theorem mem_slicing_next {func : φ} {w : Wrapper} {n : φ × Wrapper} :
    n ∈ M.slicing.next func w ↔
      ∃ call ∈ M.funcCallSites func, call.returned = true ∧ call.caller = n.1 ∧ w.inCaller call.args = some n.2 := by
  obtain ⟨g, w'⟩ := n
  simp only [slicing, List.mem_filterMap]
  refine exists_congr fun call => and_congr_right fun _ => ?_
  cases call.returned <;> simp [and_comm]

theorem Carried.next {func : φ} {w : Wrapper} (carried : M.Carried func w) (n : φ × Wrapper)
    (mem : n ∈ M.slicing.next func w) : M.Carried n.1 n.2 := by
  obtain ⟨call, site, returned, caller, up⟩ := mem_slicing_next.mp mem
  rw [← caller]
  exact .call carried (.inl site) returned up

/-- What holds of the functions seen and the tables while the slicing goes over several functions. -/
structure Sliced (M : Module φ κ) (start : Tables φ κ) (st : List φ × Tables φ κ) : Prop where
  ext : M.Extends start st.1 st.2
  nodup : st.1.Nodup
  closes : M.slicing.Closes M.Carried [] st.1

theorem Sliced.start {t : Tables φ κ} (sound : M.Sound t) : M.Sliced t ([], t) :=
  ⟨.start sound, List.nodup_nil, .refl _⟩

variable [Fintype φ]

theorem Sliced.slice {start : Tables φ κ} {st : List φ × Tables φ κ} (sliced : M.Sliced start st) {func : φ}
    {w : Wrapper} (carried : M.Carried func w) :
    ∃ st', M.MMIOReadCallGraphBackwardSlicing func w st = some st' ∧ M.Sliced start st' ∧ func ∈ st'.1 ∧
      st.1 ⊆ st'.1 := by
  obtain ⟨st', result, ⟨ext, nodup, closes⟩, seen⟩ := Walker.run_spec (w := M.slicing) (D := M.Carried)
    (I := M.Extends start) (fun _ _ carried => carried.next) (fun _ _ _ _ carried ext => ext.visit carried)
    (Fintype.card φ + 1) (n := (func, w)) carried sliced.ext sliced.nodup (by omega)
  exact ⟨st', result, ⟨ext, nodup, sliced.closes.trans closes⟩, seen, closes.subset⟩

/-! ## Calls through pointers -/

omit [Fintype φ]

/-- What `collectIndirectMMIOReadWrappers` makes of the tables `start`. -/
structure Found (M : Module φ κ) (start : Tables φ κ) (st : Tables φ κ × OrderedSet φ) : Prop where
  sound : M.Sound st.1
  kmi : st.1.kmi2Funcs = start.kmi2Funcs
  keeps : ∀ func ∈ start.mmioReadWrappers, func ∈ st.1.mmioReadWrappers
  only : ∀ func ∈ st.1.mmioReadWrappers, func ∈ start.mmioReadWrappers ∨ func ∈ st.2
  found : ∀ func ∈ st.2, func ∈ st.1.mmioReadWrappers

theorem Found.start {t : Tables φ κ} (sound : M.Sound t) : M.Found t (t, .empty) :=
  ⟨sound, rfl, fun _ => id, fun _ => .inl, fun _ mem => absurd mem OrderedSet.not_mem_empty⟩

/-- The caller has an entry, if an entry of the callee is carried to it. -/
def Reached (M : Module φ κ) (t : Tables φ κ) (func : φ) (call : Call φ) : Prop :=
  ∃ w, M.Carried func w ∧ ∀ w', w.inCaller call.args = some w' → call.caller ∈ t.mmioReadWrappers

omit [DecidableEq κ] in
theorem Reached.mono {s t : Tables φ κ} {func : φ} {call : Call φ}
    (keeps : ∀ g ∈ s.mmioReadWrappers, g ∈ t.mmioReadWrappers) (reached : M.Reached s func call) :
    M.Reached t func call := by
  obtain ⟨w, carried, up⟩ := reached
  exact ⟨w, carried, fun w' here => keeps _ (up w' here)⟩

theorem indirectCallee_spec {start : Tables φ κ} {st : Tables φ κ × OrderedSet φ} (found : M.Found start st)
    {call : IndirectCall φ κ} (site : call ∈ M.indirectCalls) (returned : call.returned = true) {key : κ}
    (loaded : call.key = some key) {func : φ} (stored : start.Stored key func) :
    ∃ st', indirectCallee call st func = some st' ∧ M.Found start st' ∧ M.Reached st'.1 func call.toCall ∧
      ∀ g ∈ st.1.mmioReadWrappers, g ∈ st'.1.mmioReadWrappers := by
  have here : st.1.Stored key func := by rwa [Tables.Stored, found.kmi]
  obtain ⟨member, known⟩ := found.sound.stored key func here
  obtain ⟨w, entry, carried⟩ := found.sound.wrapper known
  cases up : w.inCaller call.args with
  | none =>
    refine ⟨st, by rw [indirectCallee, entry, Option.map_some, up], found, ⟨w, carried, ?_⟩, fun _ => id⟩
    rw [up]
    exact nofun
  | some w' =>
    have callerCarried : M.Carried call.caller w' :=
      .call carried (.inr ⟨call, site, rfl, key, member, loaded⟩) returned up
    refine ⟨(st.1.setWrapper call.caller w', st.2.insert call.caller),
      by rw [indirectCallee, entry, Option.map_some, up], ?_, ⟨w, carried, ?_⟩, ?_⟩
    · refine ⟨found.sound.setWrapper callerCarried, found.kmi, fun g mem => ?_, fun g mem => ?_, fun g mem => ?_⟩
      · exact (AList.mem_insert _).mpr (.inr (found.keeps g mem))
      · rcases (AList.mem_insert _).mp mem with rfl | mem
        · exact .inr (OrderedSet.mem_insert.mpr (.inl rfl))
        · exact (found.only g mem).imp id fun mem => OrderedSet.mem_insert.mpr (.inr mem)
      · rcases OrderedSet.mem_insert.mp mem with rfl | mem
        · exact (AList.mem_insert _).mpr (.inl rfl)
        · exact (AList.mem_insert _).mpr (.inr (found.found g mem))
    · exact fun _ _ => (AList.mem_insert _).mpr (.inl rfl)
    · exact fun g mem => (AList.mem_insert _).mpr (.inr mem)

theorem indirectCall_spec {start : Tables φ κ} {st : Tables φ κ × OrderedSet φ} (found : M.Found start st)
    {call : IndirectCall φ κ} (site : call ∈ M.indirectCalls) :
    ∃ st', indirectCall st call = some st' ∧ M.Found start st' ∧
      (call.returned = true → ∀ key, call.key = some key → ∀ func, start.Stored key func →
        M.Reached st'.1 func call.toCall) ∧
      ∀ g ∈ st.1.mmioReadWrappers, g ∈ st'.1.mmioReadWrappers := by
  cases loaded : call.key.bind st.1.kmi2Funcs.lookup with
  | none =>
    refine ⟨st, by rw [indirectCall, loaded], found, ?_, fun _ => id⟩
    rintro - key isKey func ⟨funcs, stored, -⟩
    rw [isKey, Option.bind_some, found.kmi, stored] at loaded
    cases loaded
  | some funcs =>
    obtain ⟨key, isKey, lookup⟩ := Option.bind_eq_some_iff.mp loaded
    rw [found.kmi] at lookup
    by_cases returned : call.returned = true
    · obtain ⟨st', result, ⟨found', keeps⟩, all, -⟩ := foldlM_spec (f := indirectCallee call) (l := funcs.elements)
        (I := fun st' => M.Found start st' ∧ ∀ g ∈ st.1.mmioReadWrappers, g ∈ st'.1.mmioReadWrappers)
        (Q := fun func st' => M.Reached st'.1 func call.toCall)
        (fun s func mem inv => by
          obtain ⟨t, result, found', reached, keeps⟩ := indirectCallee_spec inv.1 site returned isKey ⟨funcs, lookup, mem⟩
          exact ⟨t, result, ⟨found', fun g mem => keeps g (inv.2 g mem)⟩, reached, fun _ => .mono keeps⟩)
        ⟨found, fun _ => id⟩
      refine ⟨st', by rw [indirectCall, loaded]; exact (if_pos returned).trans result, found', ?_, keeps⟩
      rintro - key' isKey' func ⟨funcs', lookup', mem⟩
      obtain rfl : key = key' := Option.some.inj (isKey.symm.trans isKey')
      obtain rfl : funcs = funcs' := Option.some.inj (lookup.symm.trans lookup')
      exact all func mem
    · exact ⟨st, by rw [indirectCall, loaded]; exact if_neg returned, found, fun yes => absurd yes returned, fun _ => id⟩

theorem collectIndirectMMIOReadWrappers_spec {t : Tables φ κ} (sound : M.Sound t) :
    ∃ st, M.collectIndirectMMIOReadWrappers t = some st ∧ M.Found t st ∧
      ∀ call ∈ M.indirectCalls, call.returned = true → ∀ key, call.key = some key → ∀ func, t.Stored key func →
        M.Reached st.1 func call.toCall := by
  obtain ⟨st, result, found, all, -⟩ := foldlM_spec (f := indirectCall) (I := M.Found t)
    (Q := fun call st => call.returned = true → ∀ key, call.key = some key → ∀ func, t.Stored key func →
        M.Reached st.1 func call.toCall)
    (fun s call mem found => by
      obtain ⟨s', result, found', reached, keeps⟩ := indirectCall_spec found mem
      exact ⟨s', result, found', reached, fun _ held returned key isKey func stored =>
        (held returned key isKey func stored).mono keeps⟩)
    (Found.start sound)
  exact ⟨st, result, found, all⟩

/-! ## The loop -/

/-- What holds before and after every round. -/
structure Stable (M : Module φ κ) (t : Tables φ κ) : Prop where
  sound : M.Sound t
  recorded : ∀ func ∈ t.mmioReadWrappers, M.Recorded t func
  reads : ∀ r ∈ M.callIoReads, r.returned = true → ∀ w, r.wrapper? = some w → r.func ∈ t.mmioReadWrappers
  direct : ∀ func ∈ t.mmioReadWrappers, ∃ w, M.Carried func w ∧ ∀ n ∈ M.slicing.next func w, n.1 ∈ t.mmioReadWrappers

variable [Fintype φ]

theorem ioRead_spec {start : Tables φ κ} {st : List φ × Tables φ κ} (sliced : M.Sliced start st) {r : IoRead φ}
    (mem : r ∈ M.callIoReads) :
    ∃ st', M.ioRead st r = some st' ∧ M.Sliced start st' ∧
      (r.returned = true → ∀ w, r.wrapper? = some w → r.func ∈ st'.1) ∧ st.1 ⊆ st'.1 := by
  by_cases returned : r.returned = true
  · cases starts : r.wrapper? with
    | none => exact ⟨st, by simp [ioRead, returned, starts], sliced, nofun, List.Subset.refl _⟩
    | some w =>
      obtain ⟨st', result, sliced', seen, subset⟩ := sliced.slice (.read mem returned starts)
      exact ⟨st', by simp [ioRead, returned, starts, result], sliced', fun _ _ _ => seen, subset⟩
  · exact ⟨st, by simp [ioRead, returned], sliced, fun yes => absurd yes returned, List.Subset.refl _⟩

theorem collectMMIOReadInterface_spec : ∃ t, M.collectMMIOReadInterface .empty = some t ∧ M.Stable t := by
  obtain ⟨st, result, sliced, all, -⟩ := foldlM_spec (f := M.ioRead) (I := M.Sliced .empty)
    (Q := fun r st => r.returned = true → ∀ w, r.wrapper? = some w → r.func ∈ st.1)
    (fun st r mem sliced => by
      obtain ⟨st', result, sliced', seen, subset⟩ := ioRead_spec sliced mem
      exact ⟨st', result, sliced', seen, fun _ held returned w starts => subset (held returned w starts)⟩)
    (Sliced.start Sound.empty)
  have seen : ∀ func ∈ st.2.mmioReadWrappers, func ∈ st.1 := fun func known =>
    (sliced.ext.only func known).resolve_left (AList.notMem_empty func)
  refine ⟨st.2, by rw [collectMMIOReadInterface, result]; rfl, ⟨sliced.ext.sound, ?_, ?_, ?_⟩⟩
  · exact fun func known => sliced.ext.recorded func (seen func known)
  · exact fun r mem returned w starts => (sliced.ext.recorded _ (all r mem returned w starts)).1
  · intro func known
    obtain ⟨w, carried, next⟩ := sliced.closes.closed func (seen func known) List.not_mem_nil
    exact ⟨w, carried, fun n mem => (sliced.ext.recorded _ (next n mem)).1⟩

theorem indirectWrapper_spec {start : Tables φ κ} {st : List φ × Tables φ κ} (sliced : M.Sliced start st) {func : φ}
    (known : func ∈ start.mmioReadWrappers) :
    ∃ st', M.indirectWrapper st func = some st' ∧ M.Sliced start st' ∧ func ∈ st'.1 ∧ st.1 ⊆ st'.1 := by
  obtain ⟨w, entry, carried⟩ := sliced.ext.sound.wrapper (sliced.ext.keeps func known)
  obtain ⟨st', result, rest⟩ := sliced.slice carried
  exact ⟨st', by rw [indirectWrapper, entry, Option.bind_some, result], rest⟩

/-- A round keeps the tables stable, and takes the pointers of the tables before it into account. -/
theorem round_spec {t : Tables φ κ} (stable : M.Stable t) :
    ∃ t', M.round t = some t' ∧ M.Stable t' ∧ (∀ func ∈ t.mmioReadWrappers, func ∈ t'.mmioReadWrappers) ∧
      ∀ call ∈ M.indirectCalls, call.returned = true → ∀ key, call.key = some key → ∀ func, t.Stored key func →
        M.Reached t' func call.toCall := by
  obtain ⟨mid, collected, found, indirect⟩ := collectIndirectMMIOReadWrappers_spec stable.sound
  obtain ⟨st, result, sliced, all, -⟩ := foldlM_spec (f := M.indirectWrapper) (l := mid.2.elements)
    (I := M.Sliced mid.1) (Q := fun func st => func ∈ st.1)
    (fun s func mem sliced => by
      obtain ⟨s', result, sliced', seen, subset⟩ := indirectWrapper_spec sliced (found.found func mem)
      exact ⟨s', result, sliced', seen, fun _ => @subset _⟩)
    (Sliced.start found.sound)
  have origin : ∀ func ∈ st.2.mmioReadWrappers, func ∈ t.mmioReadWrappers ∨ func ∈ st.1 := by
    intro func known
    rcases sliced.ext.only func known with known | seen
    · exact (found.only func known).imp id (all func)
    · exact .inr seen
  have keeps : ∀ func ∈ t.mmioReadWrappers, func ∈ st.2.mmioReadWrappers := fun func known =>
    sliced.ext.keeps func (found.keeps func known)
  refine ⟨st.2, ?_, ⟨sliced.ext.sound, ?_, ?_, ?_⟩, keeps, ?_⟩
  · rw [round, collected, Option.bind_some, result]
    rfl
  · intro func known
    rcases origin func known with old | seen
    · refine sliced.ext.keepsRecorded func ⟨found.keeps func old, fun key member => ?_⟩
      rw [Tables.Stored, found.kmi]
      exact (stable.recorded func old).2 key member
    · exact sliced.ext.recorded func seen
  · exact fun r mem returned w starts => keeps _ (stable.reads r mem returned w starts)
  · intro func known
    rcases origin func known with old | seen
    · obtain ⟨w, carried, next⟩ := stable.direct func old
      exact ⟨w, carried, fun n mem => keeps _ (next n mem)⟩
    · obtain ⟨w, carried, next⟩ := sliced.closes.closed func seen List.not_mem_nil
      exact ⟨w, carried, fun n mem => (sliced.ext.recorded _ (next n mem)).1⟩
  · exact fun call site returned key isKey func stored =>
      (indirect call site returned key isKey func stored).mono sliced.ext.keeps

/-! ## The result -/

omit [Fintype φ]

/-- The functions of the one table determine the keys of the other. -/
theorem Stable.mem_kmi2Funcs {t : Tables φ κ} (stable : M.Stable t) {key : κ} :
    key ∈ t.kmi2Funcs.keys ↔ ∃ func ∈ t.mmioReadWrappers, key ∈ M.func2KMI func := by
  rw [← AList.mem_keys]
  constructor
  · intro mem
    obtain ⟨func, stored⟩ := stable.sound.inhabited key mem
    obtain ⟨member, known⟩ := stable.sound.stored key func stored
    exact ⟨func, known, member⟩
  · rintro ⟨func, known, member⟩
    obtain ⟨funcs, lookup, -⟩ := (stable.recorded func known).2 key member
    rw [← AList.lookup_isSome, lookup, Option.isSome_some]

/-- The number of functions alone decides when the loop ends. -/
theorem Stable.sameSizes {s t : Tables φ κ} (before : M.Stable s) (after : M.Stable t)
    (same : ∀ func, func ∈ s.mmioReadWrappers ↔ func ∈ t.mmioReadWrappers) : s.sameSizes t = true := by
  have wrappers : s.mmioReadWrappers.keys.Perm t.mmioReadWrappers.keys :=
    (List.perm_ext_iff_of_nodup s.mmioReadWrappers.keys_nodup t.mmioReadWrappers.keys_nodup).mpr same
  have kmi : s.kmi2Funcs.keys.Perm t.kmi2Funcs.keys := by
    refine (List.perm_ext_iff_of_nodup s.kmi2Funcs.keys_nodup t.kmi2Funcs.keys_nodup).mpr fun key => ?_
    rw [before.mem_kmi2Funcs, after.mem_kmi2Funcs]
    simp only [same]
  exact decide_eq_true ⟨wrappers.length_eq, kmi.length_eq⟩

omit [DecidableEq κ] in
/-- Where the functions are only added to, their number tells whether there are new ones. -/
theorem mem_iff_of_length {s t : Tables φ κ} (keeps : ∀ func ∈ s.mmioReadWrappers, func ∈ t.mmioReadWrappers)
    (length : t.mmioReadWrappers.keys.length ≤ s.mmioReadWrappers.keys.length) (func : φ) :
    func ∈ s.mmioReadWrappers ↔ func ∈ t.mmioReadWrappers :=
  ((s.mmioReadWrappers.keys_nodup.subperm keeps).perm_of_length_le length).mem_iff

/-- What is known of the tables in the end. -/
structure Collected (M : Module φ κ) (t : Tables φ κ) : Prop where
  sound : M.Sound t
  reads : ∀ r ∈ M.callIoReads, r.returned = true → ∀ w, r.wrapper? = some w → r.func ∈ t.mmioReadWrappers
  sites : ∀ func ∈ t.mmioReadWrappers, ∀ call, M.CallSite func call → call.returned = true → M.Reached t func call

theorem collectMMIOReadWrappers_spec [Fintype φ] : ∃ t, M.collectMMIOReadWrappers = some t ∧ M.Collected t := by
  obtain ⟨start, interface, stable⟩ := collectMMIOReadInterface_spec (M := M)
  obtain ⟨s, t, before, after, last, same, loop⟩ := repeatUntil_spec M.round Tables.sameSizes
    (P := M.Stable) (μ := fun t => t.mmioReadWrappers.keys.length)
    (fun t _ => t.mmioReadWrappers.keys_nodup.length_le_card)
    (fun s stable => by
      obtain ⟨t, result, stable', keeps, -⟩ := round_spec stable
      refine ⟨t, result, stable', ?_⟩
      rcases Nat.lt_or_ge s.mmioReadWrappers.keys.length t.mmioReadWrappers.keys.length with grown | rest
      · exact .inr grown
      · exact .inl (stable.sameSizes stable' (mem_iff_of_length keeps rest)))
    (Fintype.card φ + 1) stable (by omega)
  obtain ⟨t', result, -, keeps, indirect⟩ := round_spec before
  obtain rfl : t' = t := Option.some.inj (result.symm.trans last)
  refine ⟨t', by rw [collectMMIOReadWrappers, interface, Option.bind_some, loop], after.sound, after.reads, ?_⟩
  intro func known call site returned
  rcases site with direct | ⟨site, member, rfl, key, stored, isKey⟩
  · obtain ⟨w, carried, next⟩ := after.direct func known
    exact ⟨w, carried, fun w' up => next (call.caller, w') (mem_slicing_next.mpr ⟨call, direct, returned, rfl, up⟩)⟩
  · -- the last round has added no function, so it started from the sets of all of them
    have old := (mem_iff_of_length keeps (of_decide_eq_true same).1.ge func).mpr known
    exact indirect site member returned key isKey func ((before.recorded func old).2 key stored)

end Module

end

end DevFuzz.Wrappers
