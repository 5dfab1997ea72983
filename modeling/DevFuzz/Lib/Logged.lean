import Mathlib.Tactic.SplitIfs

/-! # Computations that log what they do

A computation changes a state, logs events and may die part way.  The log of a
computation that dies is what it has logged until then.

`Sat` is about every event and every return, `Returns` and `Yields` say that a
return or an event does come.  Each has a rule for `>>=` and one for loops.
-/

namespace DevFuzz.Lib

/-- The elements of a list up to the first that fails the test, which is included. -/
def upTo {α : Type} (p : α → Bool) : List α → List α
  | [] => []
  | a :: rest => if p a then a :: upTo p rest else [a]

section

variable {α : Type} {p : α → Bool} {l : List α} {a : α}

theorem mem_of_mem_upTo (member : a ∈ upTo p l) : a ∈ l := by
  induction l with
  | nil => exact member
  | cons b rest ih =>
    unfold upTo at member
    split_ifs at member with passed
    · rcases List.mem_cons.mp member with rfl | later
      · exact List.mem_cons_self
      · exact List.mem_cons_of_mem b (ih later)
    · rw [List.mem_singleton.mp member]
      exact List.mem_cons_self

theorem head_mem_upTo : a ∈ upTo p (a :: l) := by
  unfold upTo
  split_ifs <;> exact List.mem_cons_self

theorem eq_of_mem_upTo_cons {b : α} (failed : p a = false) (member : b ∈ upTo p (a :: l)) : b = a := by
  rw [upTo, if_neg (by simp [failed])] at member
  exact List.mem_singleton.mp member

theorem upTo_eq_of_all (all : ∀ a ∈ l, p a = true) : upTo p l = l := by
  induction l with
  | nil => rfl
  | cons b rest ih =>
    rw [upTo, if_pos (all b List.mem_cons_self), ih fun a member => all a (List.mem_cons_of_mem b member)]

end

structure Logged (ε σ α : Type) where
  run : σ → List ε × Option (α × σ)

namespace Logged

variable {ε σ α β : Type}

def log (x : Logged ε σ α) (s : σ) : List ε := (x.run s).1

def result (x : Logged ε σ α) (s : σ) : Option (α × σ) := (x.run s).2

instance : Monad (Logged ε σ) where
  pure a := ⟨fun s => ([], some (a, s))⟩
  bind x f := ⟨fun s =>
    match x.run s with
    | (events, none) => (events, none)
    | (events, some (a, t)) => (events ++ ((f a).run t).1, ((f a).run t).2)⟩

def emit (e : ε) : Logged ε σ Unit := ⟨fun s => ([e], some ((), s))⟩

def die : Logged ε σ α := ⟨fun _ => ([], none)⟩

/-- The next element of the stream that is the state. -/
def next : Logged ε (Nat → α) α := ⟨fun s => ([], some (s 0, fun n => s (n + 1)))⟩

def when (c : Bool) (x : Logged ε σ Unit) : Logged ε σ Unit := if c then x else pure ()

def forEach (f : α → Logged ε σ Unit) : List α → Logged ε σ Unit
  | [] => pure ()
  | a :: rest => do
    f a
    forEach f rest

/-- A loop without an accumulator, as one with a trivial one. -/
theorem forEach_eq_foldlM (f : α → Logged ε σ Unit) (l : List α) : forEach f l = l.foldlM (fun _ a => f a) () := by
  induction l with
  | nil => rfl
  | cons a rest ih => rw [forEach, List.foldlM_cons, ih]

section

variable {x : Logged ε σ α} {f : α → Logged ε σ β} {s t : σ} {a : α} {events : List ε}

theorem run_bind_of_none (died : x.run s = (events, none)) : (x >>= f).run s = (events, none) := by
  simp only [bind, died]

theorem run_bind_of_some (returned : x.run s = (events, some (a, t))) :
    (x >>= f).run s = (events ++ ((f a).run t).1, ((f a).run t).2) := by
  simp only [bind, returned]

theorem bind_assoc {γ : Type} (x : Logged ε σ α) (f : α → Logged ε σ β) (g : β → Logged ε σ γ) :
    x >>= f >>= g = x >>= fun a => f a >>= g := by
  refine congrArg mk (funext fun s => ?_)
  show ((x >>= f) >>= g).run s = (x >>= fun a => f a >>= g).run s
  rcases first : x.run s with ⟨events, _ | ⟨a, t⟩⟩
  · rw [run_bind_of_none first, run_bind_of_none (run_bind_of_none first)]
  · rw [run_bind_of_some first]
    rcases second : (f a).run t with ⟨more, _ | ⟨b, u⟩⟩
    · have both : (x >>= f).run s = (events ++ more, none) := by rw [run_bind_of_some first, second]
      rw [run_bind_of_none second, run_bind_of_none both]
    · have both : (x >>= f).run s = (events ++ more, some (b, u)) := by
        rw [run_bind_of_some first, second]
      rw [run_bind_of_some second, run_bind_of_some both, List.append_assoc]

theorem log_bind_of_none (died : x.result s = none) : (x >>= f).log s = x.log s := by
  rw [log, run_bind_of_none (Prod.ext rfl died), log]

theorem log_bind_of_some (returned : x.result s = some (a, t)) :
    (x >>= f).log s = x.log s ++ (f a).log t := by
  rw [log, run_bind_of_some (Prod.ext rfl returned), log, log]

theorem result_bind_of_none (died : x.result s = none) : (x >>= f).result s = none := by
  rw [result, run_bind_of_none (Prod.ext rfl died)]

theorem result_bind_of_some (returned : x.result s = some (a, t)) :
    (x >>= f).result s = (f a).result t := by
  rw [result, run_bind_of_some (Prod.ext rfl returned), result]

/-- Returning something else at the end does not keep a computation from dying. -/
theorem result_bind_pure_eq_none_iff (g : α → β) :
    (x >>= fun a => (pure (g a) : Logged ε σ β)).result s = none ↔ x.result s = none := by
  cases ended : x.result s with
  | none => exact iff_of_true (result_bind_of_none ended) rfl
  | some returned =>
    rw [result_bind_of_some ended]
    exact iff_of_false nofun nofun

end

/-! ## Every event and every return -/

/-- From `pre`, every event of `x` satisfies `P`, and `post` holds if `x` returns. -/
def Sat (pre : σ → Prop) (P : ε → Prop) (x : Logged ε σ α) (post : α → σ → Prop) : Prop :=
  ∀ s, pre s → (∀ e ∈ x.log s, P e) ∧ ∀ a t, x.result s = some (a, t) → post a t

section

variable {pre I : σ → Prop} {P : ε → Prop} {x : Logged ε σ α} {post : α → σ → Prop}

theorem sat_pure {a : α} (holds : ∀ s, pre s → post a s) : Sat pre P (pure a) post := by
  intro s start
  refine ⟨fun e logged => absurd logged List.not_mem_nil, ?_⟩
  intro b t returned
  obtain ⟨rfl, rfl⟩ : a = b ∧ s = t := by simpa [result, pure] using returned
  exact holds s start

theorem sat_emit {e : ε} (holds : P e) : Sat pre P (emit e) fun _ => pre := by
  intro s start
  refine ⟨fun e' logged => List.mem_singleton.mp logged ▸ holds, ?_⟩
  intro a t returned
  obtain rfl : s = t := by simpa [result, emit] using returned
  exact start

theorem sat_next {α : Type} {pre : (Nat → α) → Prop} {post : α → (Nat → α) → Prop}
    (holds : ∀ s, pre s → post (s 0) fun n => s (n + 1)) :
    Sat pre P (next : Logged ε (Nat → α) α) post := by
  intro s start
  refine ⟨fun e logged => absurd logged List.not_mem_nil, ?_⟩
  intro a t returned
  obtain ⟨rfl, rfl⟩ : s 0 = a ∧ (fun n => s (n + 1)) = t := by simpa [result, next] using returned
  exact holds s start

theorem sat_bind {f : α → Logged ε σ β} {mid : α → σ → Prop} {post : β → σ → Prop}
    (first : Sat pre P x mid) (second : ∀ a, Sat (mid a) P (f a) post) :
    Sat pre P (x >>= f) post := by
  intro s start
  obtain ⟨events, returns⟩ := first s start
  -- when `x` dies the log is its own and nothing is returned
  cases ended : x.result s with
  | none =>
    refine ⟨log_bind_of_none ended ▸ events, ?_⟩
    intro a t returned
    rw [result_bind_of_none ended] at returned
    cases returned
  | some returned =>
    obtain ⟨a, t⟩ := returned
    obtain ⟨more, after⟩ := second a t (returns a t ended)
    rw [log_bind_of_some ended, result_bind_of_some ended]
    refine ⟨?_, after⟩
    intro e logged
    rcases List.mem_append.mp logged with logged | logged
    · exact events e logged
    · exact more e logged

theorem Sat.weaken {P' : ε → Prop} {post' : α → σ → Prop} (sat : Sat pre P x post)
    (events : ∀ e, P e → P' e) (after : ∀ a s, post a s → post' a s) : Sat pre P' x post' := by
  intro s start
  obtain ⟨logged, returns⟩ := sat s start
  exact ⟨fun e member => events e (logged e member), fun a t returned => after a t (returns a t returned)⟩

theorem sat_when {c : Bool} {x : Logged ε σ Unit} (body : c = true → Sat I P x fun _ => I) :
    Sat I P (when c x) fun _ => I := by
  cases c with
  | false => exact sat_pure fun _ start => start
  | true => exact body rfl

/-- A loop that dies at the first element that fails the test. -/
theorem sat_foldlM {p : α → Bool} {f : β → α → Logged ε σ β} {l : List α}
    (body : ∀ a ∈ upTo p l, ∀ b, Sat I P (f b a) fun _ s => p a = true ∧ I s) (b : β) :
    Sat I P (l.foldlM f b) fun _ s => (∀ a ∈ l, p a = true) ∧ I s := by
  induction l generalizing b with
  | nil => exact sat_pure fun s start => ⟨fun _ member => absurd member List.not_mem_nil, start⟩
  | cons a rest ih =>
    refine sat_bind (body a head_mem_upTo b) fun c => ?_
    by_cases passed : p a = true
    · have later := ih (fun d member => body d (by simp [upTo, passed, member])) c
      intro s start
      exact (later.weaken (fun _ holds => holds) fun _ _ ⟨all, keeps⟩ =>
        ⟨List.forall_mem_cons.mpr ⟨passed, all⟩, keeps⟩) s start.2
    · intro s start
      exact absurd start.1 passed

/-- As `sat_foldlM`, for a loop without an accumulator. -/
theorem sat_forEach {p : α → Bool} {f : α → Logged ε σ Unit} {l : List α}
    (body : ∀ a ∈ upTo p l, Sat I P (f a) fun _ s => p a = true ∧ I s) :
    Sat I P (forEach f l) fun _ s => (∀ a ∈ l, p a = true) ∧ I s := by
  rw [forEach_eq_foldlM]
  exact sat_foldlM (fun a reached _ => body a reached) ()

theorem sat_forEach_all {f : α → Logged ε σ Unit} {l : List α}
    (body : ∀ a ∈ l, Sat I P (f a) fun _ => I) : Sat I P (forEach f l) fun _ => I := by
  refine (sat_forEach (p := fun _ => true) (l := l) ?_).weaken (fun _ holds => holds) fun _ _ after => after.2
  intro a member
  exact (body a (mem_of_mem_upTo member)).weaken (fun _ holds => holds) fun _ _ keeps => ⟨rfl, keeps⟩

end

/-! ## Returns and events that do come -/

def Returns (pre : σ → Prop) (x : Logged ε σ α) (post : α → σ → Prop) : Prop :=
  ∀ s, pre s → ∃ a t, x.result s = some (a, t) ∧ post a t

def Yields (pre : σ → Prop) (Q : ε → Prop) (x : Logged ε σ α) : Prop :=
  ∀ s, pre s → ∃ e ∈ x.log s, Q e

section

variable {pre I : σ → Prop} {Q : ε → Prop} {x : Logged ε σ α} {post : α → σ → Prop}

theorem returns_pure {a : α} (holds : ∀ s, pre s → post a s) :
    Returns pre (pure a : Logged ε σ α) post :=
  fun s start => ⟨a, s, rfl, holds s start⟩

theorem returns_emit {e : ε} : Returns pre (emit e) fun _ => pre := fun s start => ⟨(), s, rfl, start⟩

theorem returns_next {α : Type} {pre : (Nat → α) → Prop} {post : α → (Nat → α) → Prop}
    (holds : ∀ s, pre s → post (s 0) fun n => s (n + 1)) :
    Returns pre (next : Logged ε (Nat → α) α) post :=
  fun s start => ⟨s 0, _, rfl, holds s start⟩

theorem returns_bind {f : α → Logged ε σ β} {mid : α → σ → Prop} {post : β → σ → Prop}
    (first : Returns pre x mid) (second : ∀ a, Returns (mid a) (f a) post) :
    Returns pre (x >>= f) post := by
  intro s start
  obtain ⟨a, t, returned, middle⟩ := first s start
  rw [result_bind_of_some returned]
  exact second a t middle

theorem Returns.weaken {post' : α → σ → Prop} (returns : Returns pre x post) (after : ∀ a s, post a s → post' a s) :
    Returns pre x post' := by
  intro s start
  obtain ⟨a, t, returned, holds⟩ := returns s start
  exact ⟨a, t, returned, after a t holds⟩

theorem returns_when {c : Bool} {x : Logged ε σ Unit} (body : c = true → Returns I x fun _ => I) :
    Returns I (when c x) fun _ => I := by
  cases c with
  | false => exact returns_pure fun _ start => start
  | true => exact body rfl

theorem returns_foldlM {f : β → α → Logged ε σ β} {l : List α}
    (body : ∀ a ∈ l, ∀ b, Returns I (f b a) fun _ => I) (b : β) : Returns I (l.foldlM f b) fun _ => I := by
  induction l generalizing b with
  | nil => exact returns_pure fun _ start => start
  | cons a rest ih =>
    exact returns_bind (body a List.mem_cons_self b) (ih fun c member => body c (List.mem_cons_of_mem a member))

theorem returns_forEach {f : α → Logged ε σ Unit} {l : List α}
    (body : ∀ a ∈ l, Returns I (f a) fun _ => I) : Returns I (forEach f l) fun _ => I := by
  rw [forEach_eq_foldlM]
  exact returns_foldlM (fun a member _ => body a member) ()

theorem yields_emit {e : ε} (holds : Q e) : Yields pre Q (emit e : Logged ε σ Unit) :=
  fun _ _ => ⟨e, List.mem_cons_self, holds⟩

theorem yields_bind_left {f : α → Logged ε σ β} (first : Yields pre Q x) : Yields pre Q (x >>= f) := by
  intro s start
  obtain ⟨e, logged, holds⟩ := first s start
  cases ended : x.result s with
  | none => exact ⟨e, log_bind_of_none ended ▸ logged, holds⟩
  | some returned => exact ⟨e, log_bind_of_some ended ▸ List.mem_append_left _ logged, holds⟩

theorem yields_bind_right {f : α → Logged ε σ β} {mid : α → σ → Prop} (first : Returns pre x mid)
    (second : ∀ a, Yields (mid a) Q (f a)) : Yields pre Q (x >>= f) := by
  intro s start
  obtain ⟨a, t, returned, middle⟩ := first s start
  obtain ⟨e, logged, holds⟩ := second a t middle
  exact ⟨e, log_bind_of_some returned ▸ List.mem_append_right _ logged, holds⟩

/-- An element of a loop is reached when those before it pass. -/
theorem yields_foldlM {p : α → Bool} {f : β → α → Logged ε σ β} {l : List α} {a : α}
    (member : a ∈ upTo p l) (passes : ∀ c ∈ l, p c = true → ∀ b, Returns I (f b c) fun _ => I)
    (here : ∀ b, Yields I Q (f b a)) (b : β) : Yields I Q (l.foldlM f b) := by
  induction l generalizing b with
  | nil => exact absurd member List.not_mem_nil
  | cons c rest ih =>
    unfold upTo at member
    split_ifs at member with passed
    · rcases List.mem_cons.mp member with rfl | later
      · exact yields_bind_left (here b)
      · exact yields_bind_right (passes c List.mem_cons_self passed b)
          (ih later fun d inside => passes d (List.mem_cons_of_mem c inside))
    · obtain rfl := List.mem_singleton.mp member
      exact yields_bind_left (here b)

/-- As `yields_foldlM`, for a loop without an accumulator. -/
theorem yields_forEach {p : α → Bool} {f : α → Logged ε σ Unit} {l : List α} {a : α}
    (member : a ∈ upTo p l) (passes : ∀ b ∈ l, p b = true → Returns I (f b) fun _ => I)
    (here : Yields I Q (f a)) : Yields I Q (forEach f l) := by
  rw [forEach_eq_foldlM]
  exact yields_foldlM member (fun c inside passed _ => passes c inside passed) (fun _ => here) ()

theorem yields_forEach_all {f : α → Logged ε σ Unit} {l : List α} {a : α} (member : a ∈ l)
    (returns : ∀ b ∈ l, Returns I (f b) fun _ => I) (here : Yields I Q (f a)) :
    Yields I Q (forEach f l) :=
  yields_forEach (p := fun _ => true) (by rwa [upTo_eq_of_all fun _ _ => rfl])
    (fun b inside _ => returns b inside) here

end

/-! ## Every event of every run -/

/-- The events of `x` satisfy `P` from whatever state it starts. -/
def Always (P : ε → Prop) (x : Logged ε σ α) : Prop := ∀ s, ∀ e ∈ x.log s, P e

section

variable {P : ε → Prop} {x : Logged ε σ α}

@[simp] theorem always_pure (a : α) : Always P (pure a : Logged ε σ α) :=
  fun _ _ logged => absurd logged List.not_mem_nil

@[simp] theorem always_die : Always P (die : Logged ε σ α) := fun _ _ logged => absurd logged List.not_mem_nil

theorem always_emit_bind [Nonempty σ] {e : ε} {f : Unit → Logged ε σ α} :
    Always P (emit e >>= f) ↔ P e ∧ Always P (f ()) := by
  have log : ∀ s, (emit e >>= f).log s = e :: (f ()).log s := fun s => log_bind_of_some rfl
  simp only [Always, log, List.forall_mem_cons]
  constructor
  · intro all
    obtain ⟨s⟩ := ‹Nonempty σ›
    exact ⟨(all s).1, fun s => (all s).2⟩
  · exact fun ⟨here, later⟩ s => ⟨here, later s⟩

@[simp] theorem always_bind_pure {g : α → β} : Always P (x >>= fun a => pure (g a)) ↔ Always P x := by
  have log : ∀ s, (x >>= fun a => pure (g a)).log s = x.log s := by
    intro s
    cases ended : x.result s with
    | none => exact log_bind_of_none ended
    | some returned =>
      rw [log_bind_of_some ended]
      exact List.append_nil _
  simp only [Always, log]

theorem Sat.always {post : α → σ → Prop} (sat : Sat (fun _ => True) P x post) : Always P x :=
  fun s => (sat s trivial).1

theorem Always.of_yields {pre : σ → Prop} {Q : ε → Prop} (always : Always P x) (yields : Yields pre Q x) {s : σ}
    (start : pre s) : ∃ e, Q e ∧ P e := by
  obtain ⟨e, logged, holds⟩ := yields s start
  exact ⟨e, holds, always s e logged⟩

end

/-! ## Computations that log more -/

section

variable {ε' : Type}

/-- The same computation with its events as part of another type of events. -/
def mapLog (f : ε → ε') (x : Logged ε σ α) : Logged ε' σ α := ⟨fun s => ((x.log s).map f, x.result s)⟩

/-- The same computation with only the events that `g` selects. -/
def keepLog (g : ε' → Option ε) (x : Logged ε' σ α) : Logged ε σ α := ⟨fun s => ((x.log s).filterMap g, x.result s)⟩

theorem sat_mapLog {pre : σ → Prop} {P : ε' → Prop} {f : ε → ε'} {x : Logged ε σ α} {post : α → σ → Prop}
    (sat : Sat pre (fun e => P (f e)) x post) : Sat pre P (mapLog f x) post := by
  intro s start
  obtain ⟨logged, returns⟩ := sat s start
  refine ⟨?_, returns⟩
  intro e' member
  obtain ⟨e, inside, rfl⟩ := List.mem_map.mp member
  exact logged e inside

variable {g : ε' → Option ε}

theorem keepLog_bind (x : Logged ε' σ α) (f : α → Logged ε' σ β) :
    keepLog g (x >>= f) = keepLog g x >>= fun a => keepLog g (f a) := by
  refine congrArg mk (funext fun s => ?_)
  show (((x >>= f).log s).filterMap g, (x >>= f).result s) = (keepLog g x >>= fun a => keepLog g (f a)).run s
  cases ended : x.result s with
  | none =>
    have kept : (keepLog g x).run s = ((x.log s).filterMap g, none) := Prod.ext rfl ended
    rw [log_bind_of_none ended, result_bind_of_none ended, run_bind_of_none kept]
  | some returned =>
    obtain ⟨a, t⟩ := returned
    have kept : (keepLog g x).run s = ((x.log s).filterMap g, some (a, t)) := Prod.ext rfl ended
    rw [log_bind_of_some ended, result_bind_of_some ended, run_bind_of_some kept, List.filterMap_append]
    rfl

theorem keepLog_emit_bind_of_none {e : ε'} (dropped : g e = none) (f : Unit → Logged ε' σ α) :
    keepLog g (emit e >>= f) = keepLog g (f ()) := by
  refine congrArg mk (funext fun s => ?_)
  show (((emit e >>= f).log s).filterMap g, (emit e >>= f).result s) = _
  rw [log_bind_of_some rfl, result_bind_of_some rfl]
  show ((e :: (f ()).log s).filterMap g, _) = _
  rw [List.filterMap_cons_none dropped]

theorem keepLog_mapLog {f : ε → ε'} (kept : ∀ e, g (f e) = some e) (x : Logged ε σ α) :
    keepLog g (mapLog f x) = x := by
  refine congrArg mk (funext fun s => Prod.ext ?_ rfl)
  have back : g ∘ f = some := funext kept
  show ((x.log s).map f).filterMap g = x.log s
  rw [List.filterMap_map, back, List.filterMap_some]

theorem keepLog_foldlM (step : β → α → Logged ε' σ β) (l : List α) (b : β) :
    keepLog g (l.foldlM step b) = l.foldlM (fun b a => keepLog g (step b a)) b := by
  induction l generalizing b with
  | nil => rfl
  | cons a rest ih =>
    rw [List.foldlM_cons, List.foldlM_cons, keepLog_bind]
    exact congrArg _ (funext ih)

end

end Logged

end DevFuzz.Lib
