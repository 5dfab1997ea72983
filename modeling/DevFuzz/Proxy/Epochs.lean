import DevFuzz.Proxy.Situations

/-! # The handshake over any number of epochs

`Inv` says of a whole state that the running AP is in one of the situations, that
the segments of earlier AP processes are finished and those of later ones
untouched.  Every step of either side preserves it, whatever the interleaving.
-/

namespace DevFuzz.Proxy

open DevFuzz.Lib DevFuzz.Lib.Bytes

/-! ## The invariant -/

structure Inv (env : Env) (s : State) : Prop where
  unborn : ∀ k, s.started ≤ k → (s.segments k).Fresh
  finished : ∀ k, k + 1 < s.started →
    (s.segments k).ready = false ∧ (s.segments k).taken = (s.segments k).sent
  none : s.started = 0 → s.ap = .exited
  current : ∀ k, k + 1 = s.started → Joint (env.stored k) s.ap (s.segments k) s.link
  connected : s.link ≠ .away → ∃ k, s.sm = some k ∧ k + 1 = s.started

theorem fresh_zero : Segment.zero.Fresh := ⟨rfl, rfl, rfl, rfl, rfl⟩

theorem inv_init (env : Env) : Inv env .init where
  unborn := fun _ _ => fresh_zero
  finished := fun _ bound => absurd bound (Nat.not_lt_zero _)
  none := fun _ => rfl
  current := fun k bound => absurd bound (Nat.succ_ne_zero k)
  connected := fun linked => absurd rfl linked

/-! ## Steps that concern the running AP and its segment only -/

theorem Inv.of_joint {env : Env} {s t : State} (inv : Inv env s) {k : Nat}
    (running : k + 1 = s.started) (started : t.started = s.started)
    (others : ∀ j, j ≠ k → t.segments j = s.segments j)
    (joint : Joint (env.stored k) t.ap (t.segments k) t.link)
    (connected : t.link ≠ .away → t.sm = some k) : Inv env t where
  unborn := by
    intro j bound
    rw [started] at bound
    rw [others j (by omega)]
    exact inv.unborn j bound
  finished := by
    intro j bound
    rw [started] at bound
    rw [others j (by omega)]
    exact inv.finished j bound
  none := by omega
  current := by
    intro j bound
    obtain rfl : j = k := by omega
    exact joint
  connected := fun linked => ⟨k, connected linked, by omega⟩

/-- Steps that leave the segments, the AP and the link of the client as they are. -/
theorem Inv.of_same {env : Env} {s t : State} (inv : Inv env s) (segments : t.segments = s.segments)
    (started : t.started = s.started) (ap : t.ap = s.ap) (link : t.link = s.link)
    (sm : t.link ≠ .away → t.sm = s.sm) : Inv env t where
  unborn := by rw [segments, started]; exact inv.unborn
  finished := by rw [segments, started]; exact inv.finished
  none := by rw [started, ap]; exact inv.none
  current := by rw [segments, started, ap, link]; exact inv.current
  connected := by
    intro linked
    rw [sm linked, started]
    exact inv.connected (link ▸ linked)

theorem State.link_congr {s t : State} (client : t.client = s.client) (sm : t.sm = s.sm) :
    t.link = s.link := by
  simp [State.link, client, sm]

/-- A step of the running AP. -/
theorem Inv.of_ap {env : Env} {s t : State} (inv : Inv env s) {k : Nat}
    (running : k + 1 = s.started) (started : t.started = s.started)
    (client : t.client = s.client) (sm : t.sm = s.sm)
    (others : ∀ j, j ≠ k → t.segments j = s.segments j)
    (joint : Joint (env.stored k) t.ap (t.segments k) s.link) : Inv env t := by
  have link := State.link_congr client sm
  refine inv.of_joint running started others (link ▸ joint) ?_
  intro linked
  obtain ⟨j, target, same⟩ := inv.connected (link ▸ linked)
  obtain rfl : j = k := by omega
  rw [sm, target]

theorem Inv.of_ap_update {env : Env} {s : State} (inv : Inv env s) {k : Nat}
    (running : k + 1 = s.started) {f : Segment → Segment} {ap : ApPc}
    (joint : Joint (env.stored k) ap (f (s.segments k)) s.link) :
    Inv env { s.update k f with ap := ap } :=
  inv.of_ap running rfl rfl rfl (fun _ other => s.update_of_ne f other)
    (by simpa only [State.update_self] using joint)

theorem Inv.of_ap_same {env : Env} {s : State} (inv : Inv env s) {k : Nat}
    (running : k + 1 = s.started) {ap : ApPc} {name : Option Nat}
    (joint : Joint (env.stored k) ap (s.segments k) s.link) :
    Inv env { s with name := name, ap := ap } :=
  inv.of_ap running rfl rfl rfl (fun _ _ => rfl) joint

/-! ## Steps of the AP -/

theorem inv_apStart {env : Env} {s t : State} (inv : Inv env s) (taken : apStart s = some t) :
    Inv env t := by
  unfold apStart at taken
  split_ifs at taken with exited
  obtain rfl := Option.some.inj taken
  have ended : ∀ k, k + 1 = s.started →
      s.link = .away ∧ (s.segments k).ready = false ∧ (s.segments k).taken = (s.segments k).sent := by
    intro k running
    exact (inv.current k running).of_late (by rw [exited]; rfl)
  -- a client that is connected to the segment of the last AP would keep it from exiting
  have gone : s.link = .away := by
    by_contra linked
    obtain ⟨k, -, running⟩ := inv.connected linked
    exact linked (ended k running).1
  have link : State.link { s with started := s.started + 1, ap := .created } = .away := gone
  constructor
  case unborn => exact fun k bound => inv.unborn k (Nat.le_of_succ_le bound)
  case finished =>
    intro k bound
    rcases Nat.lt_or_eq_of_le (Nat.le_of_lt_succ bound) with earlier | last
    · exact inv.finished k earlier
    · exact (ended k last).2
  case none => exact fun zero => absurd zero (Nat.succ_ne_zero _)
  case current =>
    intro k bound
    obtain rfl : k = s.started := by simpa using bound
    rw [link]
    exact .starting (inv.unborn _ (Nat.le_refl _)) trivial
  case connected => exact fun linked => absurd link linked

theorem inv_apStep {env : Env} {s t : State} (inv : Inv env s) (taken : apStep env s = some t) :
    Inv env t := by
  have alive : s.ap ≠ .exited := by
    intro exited
    simp [apStep, exited] at taken
  obtain ⟨k, running⟩ : ∃ k, k + 1 = s.started := by
    cases started : s.started with
    | zero => exact absurd (inv.none started) alive
    | succ k => exact ⟨k, rfl⟩
  have index : s.started - 1 = k := by omega
  have joint := inv.current k running
  simp only [apStep, index] at taken
  cases pc : s.ap with
  | exited => exact absurd pc alive
  | aborted => simp [pc] at taken
  | created =>
    simp only [pc, Option.some.injEq] at taken joint
    subst taken
    obtain ⟨away, -, -⟩ := joint.of_early rfl
    exact inv.of_ap_update running (by rw [away]; exact .starting fresh_zero trivial)
  | zeroed =>
    simp only [pc, Option.some.injEq] at taken joint
    subst taken
    obtain ⟨away, fresh, -⟩ := joint.of_early rfl
    exact inv.of_ap_same running (by rw [away]; exact .starting fresh trivial)
  | renamed =>
    simp only [pc, Option.some.injEq] at taken joint
    subst taken
    obtain ⟨away, fresh, -⟩ := joint.of_early rfl
    refine inv.of_ap_update running ?_
    rw [away]
    exact .starting ⟨fresh.ready, rfl, fresh.semw, fresh.sent, fresh.taken⟩ rfl
  | semrInit =>
    simp only [pc, Option.some.injEq] at taken joint
    subst taken
    obtain ⟨away, fresh, semr⟩ := joint.of_early rfl
    refine inv.of_ap_update running ?_
    rw [away]
    exact .starting ⟨fresh.ready, fresh.semr, rfl, fresh.sent, fresh.taken⟩ ⟨semr, rfl⟩
  | semwInit =>
    simp only [pc, Option.some.injEq] at taken joint
    subst taken
    obtain ⟨away, fresh, semr, semw⟩ := joint.of_early rfl
    refine inv.of_ap_update running ?_
    rw [away]
    exact .starting ⟨fresh.ready, fresh.semr, fresh.semw, fresh.sent, fresh.taken⟩ ⟨semr, semw, rfl⟩
  | pathSet =>
    simp only [pc, Option.some.injEq] at taken joint
    subst taken
    exact inv.of_ap_update running joint.raise
  | waiting =>
    simp only [pc] at taken joint
    split_ifs at taken with blocked
    obtain rfl := Option.some.inj taken
    exact inv.of_ap_update running (joint.receive blocked)
  | received =>
    simp only [pc, Option.some.injEq] at taken joint
    subst taken
    exact inv.of_ap_same running joint.switch
  | handling type =>
    simp only [pc] at taken joint
    -- the type is one that the client writes, so `default` is not reached
    obtain ⟨m, read, next⟩ := joint.handle
    simp only [read, Option.some.injEq] at taken
    subst taken
    exact inv.of_ap_update running next
  | posting run =>
    simp only [pc, Option.some.injEq] at taken joint
    subst taken
    exact inv.of_ap_update running joint.answer
  | closing | unlinking =>
    simp only [pc, Option.some.injEq] at taken joint
    subst taken
    obtain ⟨away, ready, same⟩ := joint.of_late rfl
    exact inv.of_ap_same running (by rw [away]; exact .left ready same (by simp))

/-! ## Steps of the client -/

theorem Inv.running_of_link {env : Env} {s : State} (inv : Inv env s) {k : Nat}
    (target : s.sm = some k) (linked : s.link ≠ .away) : k + 1 = s.started := by
  obtain ⟨j, same, running⟩ := inv.connected linked
  obtain rfl : j = k := by simpa [target] using same.symm
  exact running

/-- The flag is up in the segment of the running AP only. -/
theorem Inv.running_of_ready {env : Env} {s : State} (inv : Inv env s) {k : Nat}
    (ready : (s.segments k).ready = true) : k + 1 = s.started := by
  by_contra other
  rcases Nat.lt_or_gt_of_ne other with earlier | later
  · simp [(inv.finished k earlier).1] at ready
  · simp [(inv.unborn k (Nat.le_of_lt_succ later)).ready] at ready

/-- A step of the client that is connected to the running AP. -/
theorem Inv.of_client {env : Env} {s : State} (inv : Inv env s) {k : Nat} (target : s.sm = some k)
    {f : Segment → Segment} {client : ClientPc} {link : Link}
    (moves : Joint (env.stored k) s.ap (s.segments k) link →
      Joint (env.stored k) s.ap (f (s.segments k)) (State.link { s with client := client }))
    (linked : s.link = link) (present : link ≠ .away) :
    Inv env { s.update k f with client := client } := by
  have running := inv.running_of_link target (by rw [linked]; exact present)
  refine inv.of_joint running rfl (fun _ other => s.update_of_ne f other) ?_ (fun _ => target)
  dsimp only
  rw [State.update_self]
  exact moves (linked ▸ inv.current k running)

theorem inv_clientOn {env : Env} {s t : State} (inv : Inv env s) {k : Nat} (target : s.sm = some k)
    (taken : clientOn env s k = some t) : Inv env t := by
  unfold clientOn at taken
  cases pc : s.client with
  | check next =>
    simp only [pc, Option.some.injEq] at taken
    subst taken
    have away : s.link = .away := by simp only [State.link, pc]
    by_cases ready : (s.segments k).ready
    · -- `k` may be the segment of any AP, but only that of the running one shows the flag
      have running := inv.running_of_ready ready
      simp only [ready, ↓reduceIte]
      exact inv.of_joint running rfl (fun _ _ => rfl) ((away ▸ inv.current k running).connect ready)
        (fun _ => target)
    · simp only [ready, Bool.false_eq_true, ↓reduceIte]
      exact inv.of_same rfl rfl rfl away.symm (fun _ => rfl)
  | send payload ret =>
    simp only [pc, Option.some.injEq] at taken
    subst taken
    exact inv.of_client target (fun joint => joint.send payload) (by simp only [State.link, pc]) nofun
  | fill payload ret =>
    simp only [pc, Option.some.injEq] at taken
    subst taken
    exact inv.of_client target (fun joint => joint.fill) (by simp only [State.link, pc]) nofun
  | post payload ret =>
    simp only [pc, Option.some.injEq] at taken
    subst taken
    exact inv.of_client target (fun joint => joint.post) (by simp only [State.link, pc]) nofun
  | wait ret =>
    simp only [pc] at taken
    split_ifs at taken with blocked
    obtain rfl := Option.some.inj taken
    have waiting : s.link = .waiting := by simp only [State.link, pc]
    refine inv.of_client target (fun joint => ?_) waiting nofun
    cases ret with
    | init next => exact joint.resume blocked
    | call =>
      simp only [State.link, target, Option.isSome_some, ↓reduceIte]
      exact joint.resume blocked
  | exitType =>
    simp only [pc, Option.some.injEq] at taken
    subst taken
    exact inv.of_client target (fun joint => joint.exitType) (by simp only [State.link, pc]) nofun
  | exitReady =>
    simp only [pc, Option.some.injEq] at taken
    subst taken
    exact inv.of_client target (fun joint => joint.exitReady) (by simp only [State.link, pc]) nofun
  | exitPost =>
    simp only [pc, Option.some.injEq] at taken
    subst taken
    exact inv.of_client target (fun joint => joint.exitPost) (by simp only [State.link, pc]) nofun
  | _ => simp [pc] at taken

theorem inv_clientStep {env : Env} {s t : State} (inv : Inv env s)
    (taken : clientStep env s = some t) : Inv env t := by
  unfold clientStep at taken
  cases pc : s.client with
  | idle => simp [pc] at taken
  | aborted => simp [pc] at taken
  | entered next =>
    simp only [pc, Option.some.injEq] at taken
    subst taken
    refine inv.of_same rfl rfl rfl ?_ (fun _ => rfl)
    cases target : s.sm with
    | none => simp [State.link, pc, target]
    | some k => simp [State.link, pc, target]
  | connect next =>
    simp only [pc] at taken
    -- connecting alone is no link yet: the segment counts once it is seen `ready`
    cases name : s.name with
    | none =>
      simp only [name, Option.some.injEq] at taken
      exact taken ▸ inv
    | some k =>
      simp only [name, Option.some.injEq] at taken
      subst taken
      exact inv.of_same rfl rfl rfl (by simp only [State.link, pc]) (fun linked => absurd rfl linked)
  | returned next =>
    simp only [pc] at taken
    obtain ⟨k, target, -⟩ := inv.connected (by simp [State.link, pc])
    cases next with
    | none =>
      simp only [Option.some.injEq] at taken
      subst taken
      exact inv.of_same rfl rfl rfl (by simp [State.link, pc, target]) (fun _ => rfl)
    | some rip =>
      simp only [Option.some.injEq] at taken
      subst taken
      exact inv.of_same rfl rfl rfl (by simp only [State.link, pc]) (fun _ => rfl)
  | exitClose =>
    simp only [pc, Option.some.injEq] at taken
    subst taken
    exact inv.of_same rfl rfl rfl (by simp [State.link, pc]) (fun linked => absurd rfl linked)
  | _ =>
    simp only [pc] at taken
    obtain ⟨k, target, on⟩ := Option.bind_eq_some_iff.mp taken
    exact inv_clientOn inv target on

/-- A call only moves the client from `idle` to a point with the same link. -/
theorem inv_call {env : Env} {s t : State} (inv : Inv env s) {c : Call}
    (taken : call env s c = some t) : Inv env t := by
  have pc : s.client = .idle := by
    by_contra busy
    simp [call, busy] at taken
  have link : s.link = if s.sm.isSome then .free else .away := by simp [State.link, pc]
  simp only [call, pc, ↓reduceIte] at taken
  cases c with
  | realApInit =>
    obtain rfl := Option.some.inj taken
    exact inv.of_same rfl rfl rfl link.symm (fun _ => rfl)
  | apInit =>
    obtain rfl := Option.some.inj taken
    refine inv.of_same rfl rfl rfl ?_ (fun _ => rfl)
    rw [link]
    cases env.enabled <;> rfl
  | apLogPc rip =>
    cases target : s.sm with
    | none =>
      simp only [target, Option.isSome_none, Bool.false_eq_true, ↓reduceIte, Option.some.injEq] at taken link
      subst taken
      refine inv.of_same rfl rfl rfl ?_ (fun _ => target.symm)
      rw [link]
      cases env.enabled <;> rfl
    | some k =>
      simp only [target, Option.isSome_some, ↓reduceIte, Option.some.injEq] at taken link
      subst taken
      exact inv.of_same rfl rfl rfl link.symm (fun _ => target.symm)
  | apReattachPt =>
    cases target : s.sm with
    | none =>
      simp only [target, Option.isSome_none, Bool.false_eq_true, ↓reduceIte, Option.some.injEq] at taken link
      subst taken
      exact inv.of_same rfl rfl rfl link.symm (fun _ => target.symm)
    | some k =>
      simp only [target, Option.isSome_some, ↓reduceIte, Option.some.injEq] at taken link
      subst taken
      exact inv.of_same rfl rfl rfl link.symm (fun _ => target.symm)
  | apExit =>
    obtain rfl := Option.some.inj taken
    refine inv.of_same rfl rfl rfl ?_ (fun _ => rfl)
    rw [link]
    cases s.sm <;> rfl

theorem inv_step {env : Env} {s t : State} {a : Action} (inv : Inv env s) (taken : Steps env s a t) :
    Inv env t := by
  cases a with
  | start => exact inv_apStart inv taken
  | ap => exact inv_apStep inv taken
  | call c => exact inv_call inv taken
  | client => exact inv_clientStep inv taken

theorem inv_run {env : Env} {actions : List Action} {s : State}
    (run : Run (Steps env) .init actions s) : Inv env s :=
  run.invariant (fun _ _ _ inv taken => inv_step inv taken) (inv_init env)

end DevFuzz.Proxy
