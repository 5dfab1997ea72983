import DevFuzz.Wrappers.Tables

/-! # The tables at every point

`collectIndirectMMIOReadWrappers` takes three elements of an entry without looking whether they are there.
The collection is run here on a history of the tables: every write adds a point, and so does
`operator[]` where it makes an element that the write then fills.  `collectHistory_spec` says
that the run ends with the tables of `collectMMIOReadWrappers`, and that at no point a function of a set is without
its three elements.
-/

namespace DevFuzz.Wrappers

open DevFuzz.Lib

variable {φ κ : Type} [LinearOrder φ] [DecidableEq κ]

namespace Tables

/-- `mmioReadWrappers[func]` before it is assigned to -/
def ensureWrapper (t : Tables φ κ) (func : φ) : Tables φ κ :=
  if func ∈ t.mmioReadWrappers then t else { t with mmioReadWrappers := t.mmioReadWrappers.insert func [] }

/-- `kmi2Funcs[key]` before a function is inserted -/
def ensureFuncs (t : Tables φ κ) (key : κ) : Tables φ κ :=
  if key ∈ t.kmi2Funcs then t else { t with kmi2Funcs := t.kmi2Funcs.insert key .empty }

def HasEntry (t : Tables φ κ) (func : φ) : Prop := ∃ vec, t.mmioReadWrappers.lookup func = some vec ∧ vec.length = 3

def Formed (t : Tables φ κ) : Prop := ∀ key func, t.Stored key func → t.HasEntry func

/-! ## Writes -/

variable {t : Tables φ κ}

omit [DecidableEq κ] in
theorem setWrapper_ensureWrapper (t : Tables φ κ) (func : φ) (w : Wrapper) :
    (t.ensureWrapper func).setWrapper func w = t.setWrapper func w := by
  unfold ensureWrapper
  split_ifs
  · rfl
  · rw [setWrapper, setWrapper, AList.insert_insert]

theorem insertFunc_ensureFuncs (t : Tables φ κ) (func : φ) (key : κ) :
    insertFunc func (t.ensureFuncs key) key = insertFunc func t key := by
  unfold ensureFuncs
  split_ifs with new
  · rfl
  · have missing : t.kmi2Funcs.lookup key = none := AList.lookup_eq_none.mpr new
    rw [insertFunc, insertFunc, AList.insert_insert, AList.lookup_insert, missing]
    rfl

omit [DecidableEq κ] in
theorem hasEntry_setWrapper (t : Tables φ κ) (func : φ) (w : Wrapper) : (t.setWrapper func w).HasEntry func :=
  ⟨w.toList, AList.lookup_insert _, rfl⟩

theorem Formed.empty : (Tables.empty : Tables φ κ).Formed := by
  rintro key func ⟨funcs, found, -⟩
  rw [Tables.empty, AList.lookup_empty] at found
  cases found

/-- An empty entry is made for a function that is in no set. -/
theorem Formed.ensureWrapper (formed : t.Formed) (func : φ) : (t.ensureWrapper func).Formed := by
  unfold Tables.ensureWrapper
  split_ifs with new
  · exact formed
  · intro key g stored
    obtain ⟨vec, found, three⟩ := formed key g stored
    have other : g ≠ func := by
      rintro rfl
      rw [AList.lookup_eq_none.mpr new] at found
      cases found
    exact ⟨vec, (AList.lookup_insert_ne other).trans found, three⟩

theorem Formed.setWrapper (formed : t.Formed) (func : φ) (w : Wrapper) : (t.setWrapper func w).Formed := by
  intro key g stored
  by_cases same : g = func
  · subst same
    exact hasEntry_setWrapper t g w
  · obtain ⟨vec, found, three⟩ := formed key g stored
    exact ⟨vec, (AList.lookup_insert_ne same).trans found, three⟩

theorem Formed.ensureFuncs (formed : t.Formed) (key : κ) : (t.ensureFuncs key).Formed := by
  unfold Tables.ensureFuncs
  split_ifs
  · exact formed
  · rintro k func ⟨funcs, found, mem⟩
    by_cases same : k = key
    · subst same
      rw [AList.lookup_insert, Option.some.injEq] at found
      exact absurd (found ▸ mem) OrderedSet.not_mem_empty
    · rw [AList.lookup_insert_ne same] at found
      exact formed k func ⟨funcs, found, mem⟩

theorem Formed.insertFunc (formed : t.Formed) {func : φ} (entry : t.HasEntry func) (key : κ) :
    (insertFunc func t key).Formed := by
  intro k g stored
  rcases stored_insertFunc.mp stored with ⟨-, rfl⟩ | old
  · exact entry
  · exact formed k g old

end Tables

/-! ## Histories -/

variable (φ κ) in
structure History where
  now : Tables φ κ
  /-- the tables before, the latest first -/
  past : List (Tables φ κ)

namespace History

def points (h : History φ κ) : List (Tables φ κ) := h.now :: h.past

def become (h : History φ κ) (t : Tables φ κ) : History φ κ := ⟨t, h.points⟩

/-- `mmioReadWrappers[func] = w` -/
def setWrapper (h : History φ κ) (func : φ) (w : Wrapper) : History φ κ :=
  let made := h.become (h.now.ensureWrapper func)
  made.become (made.now.setWrapper func w)

/-- `kmi2Funcs[key].insert(func)` -/
def insertFunc (func : φ) (h : History φ κ) (key : κ) : History φ κ :=
  let made := h.become (h.now.ensureFuncs key)
  made.become (Tables.insertFunc func made.now key)

/-- The history has come to the tables `t`, and all its points are formed. -/
structure Follows (h : History φ κ) (t : Tables φ κ) : Prop where
  now : h.now = t
  formed : ∀ p ∈ h.points, p.Formed

variable {h : History φ κ} {t : Tables φ κ}

theorem Follows.here (follows : h.Follows t) : h.now.Formed := follows.formed h.now List.mem_cons_self

theorem Follows.become (follows : h.Follows t) {t' : Tables φ κ} (formed : t'.Formed) : (h.become t').Follows t' := by
  refine ⟨rfl, fun p mem => ?_⟩
  cases mem with
  | head => exact formed
  | tail _ before => exact follows.formed p before

theorem Follows.setWrapper (follows : h.Follows t) (func : φ) (w : Wrapper) :
    (h.setWrapper func w).Follows (t.setWrapper func w) := by
  have made := follows.become (follows.here.ensureWrapper func)
  have written := made.become (made.here.setWrapper func w)
  refine ⟨?_, written.formed⟩
  rw [← follows.now]
  exact Tables.setWrapper_ensureWrapper h.now func w

theorem hasEntry_ensureFuncs {func : φ} (entry : t.HasEntry func) (key : κ) : (t.ensureFuncs key).HasEntry func := by
  unfold Tables.ensureFuncs
  split_ifs <;> exact entry

theorem Follows.insertFunc (follows : h.Follows t) {func : φ} (entry : t.HasEntry func) (key : κ) :
    (insertFunc func h key).Follows (Tables.insertFunc func t key) := by
  have made := follows.become (follows.here.ensureFuncs key)
  have written := made.become (made.here.insertFunc (hasEntry_ensureFuncs (follows.now ▸ entry) key) key)
  refine ⟨?_, written.formed⟩
  rw [← follows.now]
  exact Tables.insertFunc_ensureFuncs h.now func key

/-- A function is stored under all its keys once it has an entry. -/
theorem Follows.foldl_insertFunc {func : φ} (keys : List κ) (follows : h.Follows t) (entry : t.HasEntry func) :
    (keys.foldl (History.insertFunc func) h).Follows (keys.foldl (Tables.insertFunc func) t) := by
  induction keys generalizing h t with
  | nil => exact follows
  | cons key rest ih => exact ih (follows.insertFunc entry key) entry

end History

/-! ## The collection -/

namespace Module

variable (M : Module φ κ)

def slicingHistory : Walker φ Wrapper (History φ κ) where
  visit func w h := (M.func2KMI func).foldl (History.insertFunc func) (h.setWrapper func w)
  next := M.slicing.next

def indirectCalleeHistory (call : IndirectCall φ κ) (st : History φ κ × OrderedSet φ) (calledFunc : φ) :
    Option (History φ κ × OrderedSet φ) :=
  (st.1.now.wrapper? calledFunc).map fun vec =>
    match vec.inCaller call.args with
    | none => st
    | some w => (st.1.setWrapper call.caller w, st.2.insert call.caller)

def indirectCallHistory (st : History φ κ × OrderedSet φ) (call : IndirectCall φ κ) :
    Option (History φ κ × OrderedSet φ) :=
  match call.key.bind st.1.now.kmi2Funcs.lookup with
  | none => some st
  | some funcs => if call.returned then funcs.elements.foldlM (indirectCalleeHistory call) st else some st

def collectIndirectHistory (h : History φ κ) : Option (History φ κ × OrderedSet φ) :=
  M.indirectCalls.foldlM indirectCallHistory (h, .empty)

section

variable [Fintype φ]

def sliceHistory (func : φ) (w : Wrapper) (st : List φ × History φ κ) : Option (List φ × History φ κ) :=
  M.slicingHistory.run (Fintype.card φ + 1) (func, w) st

def ioReadHistory (st : List φ × History φ κ) (r : IoRead φ) : Option (List φ × History φ κ) :=
  match if r.returned then r.wrapper? else none with
  | none => some st
  | some w => M.sliceHistory r.func w st

def collectInterfaceHistory (h : History φ κ) : Option (History φ κ) :=
  (M.callIoReads.foldlM M.ioReadHistory ([], h)).map Prod.snd

def indirectWrapperHistory (st : List φ × History φ κ) (func : φ) : Option (List φ × History φ κ) :=
  (st.2.now.wrapper? func).bind fun w => M.sliceHistory func w st

def roundHistory (h : History φ κ) : Option (History φ κ) :=
  (M.collectIndirectHistory h).bind fun found =>
    (found.2.elements.foldlM M.indirectWrapperHistory ([], found.1)).map Prod.snd

/-- `collectMMIOReadWrappers`, from empty tables on -/
def collectHistory : Option (History φ κ) :=
  (M.collectInterfaceHistory ⟨.empty, []⟩).bind
    (repeatUntil M.roundHistory (fun h h' => h.now.sameSizes h'.now) (Fintype.card φ + 1))

end

/-! ## The two runs -/

variable {M} {h : History φ κ} {t : Tables φ κ}

theorem visit_follows (func : φ) (w : Wrapper) (follows : h.Follows t) :
    (M.slicingHistory.visit func w h).Follows (M.slicing.visit func w t) :=
  (follows.setWrapper func w).foldl_insertFunc _ (Tables.hasEntry_setWrapper t func w)

/-- States with a history, beside the same states without. -/
def Found.Follows (st : History φ κ × OrderedSet φ) (st' : Tables φ κ × OrderedSet φ) : Prop :=
  st.1.Follows st'.1 ∧ st.2 = st'.2

def Seen.Follows (st : List φ × History φ κ) (st' : List φ × Tables φ κ) : Prop := st.1 = st'.1 ∧ st.2.Follows st'.2

theorem indirectCallee_follows (call : IndirectCall φ κ) {st : History φ κ × OrderedSet φ}
    {st' : Tables φ κ × OrderedSet φ} (calledFunc : φ) (follows : Found.Follows st st') :
    Option.Rel Found.Follows (indirectCalleeHistory call st calledFunc) (indirectCallee call st' calledFunc) := by
  obtain ⟨h, found⟩ := st
  obtain ⟨t, found'⟩ := st'
  obtain ⟨follows, rfl : found = found'⟩ := follows
  obtain rfl : h.now = t := follows.now
  unfold indirectCalleeHistory indirectCallee
  -- both runs take the three elements from the same table
  cases entry : h.now.wrapper? calledFunc with
  | none => exact .none
  | some vec =>
    refine .some ?_
    dsimp only
    cases vec.inCaller call.args with
    | none => exact ⟨follows, rfl⟩
    | some w => exact ⟨follows.setWrapper call.caller w, rfl⟩

theorem indirectCall_follows {st : History φ κ × OrderedSet φ} {st' : Tables φ κ × OrderedSet φ}
    (call : IndirectCall φ κ) (follows : Found.Follows st st') :
    Option.Rel Found.Follows (indirectCallHistory st call) (indirectCall st' call) := by
  unfold indirectCallHistory indirectCall
  rw [follows.1.now]
  cases call.key.bind st'.1.kmi2Funcs.lookup with
  | none => exact .some follows
  | some funcs =>
    dsimp only
    split_ifs
    · exact foldlM_rel (fun _ _ func related => indirectCallee_follows call func related) _ follows
    · exact .some follows

variable [Fintype φ]

theorem slice_follows (func : φ) (w : Wrapper) {st : List φ × History φ κ} {st' : List φ × Tables φ κ}
    (follows : Seen.Follows st st') :
    Option.Rel Seen.Follows (M.sliceHistory func w st) (M.MMIOReadCallGraphBackwardSlicing func w st') :=
  Walker.run_rel (R := History.Follows) rfl (fun func w _ _ related => visit_follows func w related) _ _ follows

theorem ioRead_follows (r : IoRead φ) {st : List φ × History φ κ} {st' : List φ × Tables φ κ}
    (follows : Seen.Follows st st') : Option.Rel Seen.Follows (M.ioReadHistory st r) (M.ioRead st' r) := by
  unfold ioReadHistory ioRead
  cases if r.returned then r.wrapper? else none with
  | none => exact .some follows
  | some w => exact slice_follows r.func w follows

theorem indirectWrapper_follows (func : φ) {st : List φ × History φ κ} {st' : List φ × Tables φ κ}
    (follows : Seen.Follows st st') :
    Option.Rel Seen.Follows (M.indirectWrapperHistory st func) (M.indirectWrapper st' func) := by
  unfold indirectWrapperHistory indirectWrapper
  rw [follows.2.now]
  cases st'.2.wrapper? func with
  | none => exact .none
  | some w => exact slice_follows func w follows

theorem round_follows (follows : h.Follows t) : Option.Rel History.Follows (M.roundHistory h) (M.round t) := by
  have indirect : Option.Rel Found.Follows (M.collectIndirectHistory h) (M.collectIndirectMMIOReadWrappers t) :=
    foldlM_rel (fun _ _ call related => indirectCall_follows call related) _ ⟨follows, rfl⟩
  refine rel_bind indirect fun st st' found => ?_
  rw [found.2]
  exact rel_map (foldlM_rel (fun _ _ func related => indirectWrapper_follows func related) _ ⟨rfl, found.1⟩)
    fun _ _ seen => seen.2

theorem collect_follows : Option.Rel History.Follows M.collectHistory M.collectMMIOReadWrappers := by
  have start : (⟨.empty, []⟩ : History φ κ).Follows .empty :=
    ⟨rfl, fun p mem => by rw [List.mem_singleton.mp mem]; exact .empty⟩
  refine rel_bind (rel_map (foldlM_rel (fun _ _ r related => ioRead_follows r related) _ ⟨rfl, start⟩)
    fun _ _ seen => seen.2) fun h t interface => ?_
  refine repeatUntil_rel (fun _ _ => round_follows) (fun h h' t t' before after => ?_) _ interface
  rw [before.now, after.now]

/-- The loop ends, and at every point of the run each function in a set has its three elements. -/
theorem collectHistory_spec (M : Module φ κ) :
    ∃ h, M.collectHistory = some h ∧ M.collectMMIOReadWrappers = some h.now ∧ ∀ t ∈ h.points, t.Formed := by
  -- that the loop ends is known of the run without a history, and the other one goes beside it
  obtain ⟨t, result, -⟩ := collectMMIOReadWrappers_spec (M := M)
  have both := collect_follows (M := M)
  rw [result] at both ⊢
  cases run : M.collectHistory with
  | none =>
    rw [run] at both
    cases both
  | some h =>
    rw [run] at both
    cases both with
    | some follows => exact ⟨h, rfl, congrArg some follows.now.symm, follows.formed⟩

end Module

end DevFuzz.Wrappers
