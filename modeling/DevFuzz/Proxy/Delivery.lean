import DevFuzz.Proxy.Epochs

/-! # What the handshake guarantees

A message that has been posted is taken by the AP within three of its own steps;
together with the invariant this gives what the client and the AP can rely on in
every reachable state.
-/

namespace DevFuzz.Proxy

open DevFuzz.Lib

/-! ## A posted message reaches the AP -/

section

variable {env : Env} {s : State} {k : Nat}

/-- The AP takes what has been sent to the segment `k` within `n` of its own steps. -/
def Takes (env : Env) (s : State) (k n : Nat) : Prop :=
  ∃ t, Run (Steps env) s (List.replicate n .ap) t ∧ (t.segments k).taken = (s.segments k).sent

theorem Takes.after {t : State} {n : Nat} (first : Steps env s .ap t)
    (same : (t.segments k).sent = (s.segments k).sent) (rest : Takes env t k n) :
    Takes env s k (n + 1) := by
  obtain ⟨u, run, taken⟩ := rest
  exact ⟨u, .cons first run, taken.trans same⟩

theorem takes_of_handling {type : UInt8} (inv : Inv env s) (running : k + 1 = s.started)
    (pc : s.ap = .handling type) : Takes env s k 1 := by
  have joint := inv.current k running
  rw [pc] at joint
  obtain ⟨m, read, next⟩ := joint.handle
  have index : s.started - 1 = k := by omega
  have handle : Steps env s .ap
      { s.update k fun seg => { seg with taken := seg.taken ++ [m] } with ap := .posting (m ≠ .exit) } := by
    simp [Steps, step, apStep, pc, index, read]
  exact ⟨_, .cons handle (.nil _), by simpa using next.taken_of_posting⟩

theorem takes_of_received (inv : Inv env s) (running : k + 1 = s.started) (pc : s.ap = .received) :
    Takes env s k 2 := by
  have index : s.started - 1 = k := by omega
  have switch : Steps env s .ap { s with ap := .handling (s.segments k).type } := by
    simp [Steps, step, apStep, pc, index]
  exact .after switch rfl (takes_of_handling (inv_step inv switch) running rfl)

theorem takes_of_waiting (inv : Inv env s) (running : k + 1 = s.started) (pc : s.ap = .waiting)
    (posted : (s.segments k).semw ≠ 0) : Takes env s k 3 := by
  have index : s.started - 1 = k := by omega
  have receive : Steps env s .ap
      { s.update k fun seg => { seg with semw := seg.semw - 1 } with ap := .received } := by
    simp [Steps, step, apStep, pc, index, posted]
  exact .after receive (by simp) (takes_of_received (inv_step inv receive) running rfl)

theorem takes_of_carried {type : UInt8} (inv : Inv env s) (running : k + 1 = s.started)
    (carried : Carried (s.segments k) type s.ap) : ∃ n ≤ 3, Takes env s k n := by
  rcases carried with ⟨pc, one⟩ | ⟨pc, -⟩ | ⟨pc, -⟩
  · exact ⟨3, by omega, takes_of_waiting inv running pc (by omega)⟩
  · exact ⟨2, by omega, takes_of_received inv running pc⟩
  · exact ⟨1, by omega, takes_of_handling inv running pc⟩

/-- Either everything sent has been taken, or one message is under way. -/
def Delivered (env : Env) (s : State) (k : Nat) : Prop :=
  (s.segments k).taken = (s.segments k).sent ∨
    ∃ m, (s.segments k).sent = (s.segments k).taken ++ [m] ∧ ∃ n ≤ 3, Takes env s k n

theorem Inv.delivered (inv : Inv env s) (k : Nat) : Delivered env s k := by
  rcases Nat.lt_trichotomy (k + 1) s.started with earlier | running | later
  · exact .inl (inv.finished k earlier).2
  · have carries : ∀ {type : UInt8}, Carried (s.segments k) type s.ap → ∃ n ≤ 3, Takes env s k n :=
      takes_of_carried inv running
    -- only in two of the situations has something been sent that is not taken yet
    have joint := inv.current k running
    generalize s.link = link at joint
    generalize s.ap = ap at joint carries
    cases joint with
    | starting fresh startup => exact .inl (by rw [fresh.taken, fresh.sent])
    | quiet up ready settled fits => exact .inl settled.taken
    | posted up semr sent type read carried ready => exact .inr ⟨_, sent, carries carried⟩
    | answering up ready settled => exact .inl settled.taken
    | answered up ready semr semw taken => exact .inl taken
    | cleared settled ready type => exact .inl settled.taken
    | leaving ready sent type carried => exact .inr ⟨_, sent, carries carried⟩
    | left ready taken ending => exact .inl taken
  · have fresh := inv.unborn k (Nat.le_of_lt_succ later)
    exact .inl (by rw [fresh.taken, fresh.sent])

end

/-! ## The handshake -/

/-- What the client and the AP can rely on in a state. -/
structure HandshakeSound (env : Env) (s : State) : Prop where
  /-- `real_ap_init` returns connected to the segment of an AP that is ready for messages -/
  connected : ∀ next, s.client = .returned next → ∃ k, s.sm = some k ∧ k + 1 = s.started ∧
    s.ap = .waiting ∧ (s.segments k).Up (env.stored k) ∧ (s.segments k).path ≠ []
  /-- messages are taken in the order of their posts, as they were written -/
  delivered : ∀ k, Delivered env s k
  /-- an AP that has exited has taken everything that was sent to it -/
  finished : ∀ k, k + 1 < s.started ∨ (k + 1 = s.started ∧ s.ap = .exited) →
    (s.segments k).taken = (s.segments k).sent
  /-- the client waits for the AP of its segment, and they do not wait for each other -/
  noDeadlock : ∀ ret k, s.client = .wait ret → s.sm = some k → k + 1 = s.started ∧
    ¬ (s.ap = .waiting ∧ (s.segments k).semr = 0 ∧ (s.segments k).semw = 0)

theorem Env.stored_ne_nil (env : Env) (k : Nat) : env.stored k ≠ [] := by
  simp [Env.stored, env.path_ne_nil]

theorem handshake_sound {env : Env} {actions : List Action} {s : State}
    (run : Run (Steps env) .init actions s) : HandshakeSound env s := by
  have inv := inv_run run
  constructor
  case connected =>
    intro next pc
    have link : s.link = .free := by simp [State.link, pc]
    obtain ⟨k, target, running⟩ := inv.connected (by simp [link])
    obtain ⟨waiting, up⟩ := (link ▸ inv.current k running).of_free
    exact ⟨k, target, running, waiting, up, up.path_eq ▸ env.stored_ne_nil k⟩
  case delivered => exact inv.delivered
  case finished =>
    rintro k (earlier | ⟨running, exited⟩)
    · exact (inv.finished k earlier).2
    · exact ((inv.current k running).of_late (by rw [exited]; rfl)).2.2
  case noDeadlock =>
    intro ret k pc target
    have link : s.link = .waiting := by simp [State.link, pc]
    have running := inv.running_of_link target (by simp [link])
    refine ⟨running, ?_⟩
    rintro ⟨waiting, blocked⟩
    have joint := inv.current k running
    rw [waiting, link] at joint
    exact joint.not_blocked blocked

def sampleEnv : Env := ⟨fun _ => ['i', 'n'], by simp, true, 7⟩

/-- One AP, and a client that connects to it and logs a PC. -/
def sampleSession : List Action :=
  [.start, .ap, .ap, .ap, .ap, .ap, .ap, .call (.apLogPc 0x1000), .client, .client, .client, .client,
    .client, .client, .ap, .ap, .ap, .ap, .client]

theorem handshake_sound_sampleSession : ∃ s, Run (Steps sampleEnv) .init sampleSession s ∧
    s.client = .returned (some 0x1000) ∧ HandshakeSound sampleEnv s := by
  have returned : (sampleSession.foldlM (step sampleEnv) .init).map State.client =
      some (.returned (some 0x1000)) := by decide +kernel
  obtain ⟨s, steps, pc⟩ := Option.map_eq_some_iff.mp returned
  exact ⟨s, Run.of_foldlM steps, pc, handshake_sound (Run.of_foldlM steps)⟩

end DevFuzz.Proxy
