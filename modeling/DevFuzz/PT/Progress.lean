import DevFuzz.PT.Passes

/-! # Termination of the decode

The passes of the inner loop start at ever larger offsets, also across passes of
the outer one: the search for a PSB never stops at an unknown packet.  A pass of
the outer loop leaves the PSB it has found behind.  This bounds the number of
passes of either loop (`decode_terminates`).
-/

namespace DevFuzz.PT

open DevFuzz.Lib

/-- A pass of the inner loop starts. -/
def innerPass (b : Buffer) (s : State) : Bool := s.phase == .packet && s.p < b.len

/-- A pass of the outer loop starts. -/
def outerPass (b : Buffer) (s : State) : Bool := s.phase == .sync && s.p < b.len

/-- What the rest of a pass of the outer loop does: it runs the inner loop from `s` and ends in `t`. -/
def OuterRest (b : Buffer) (s t : State) : Prop :=
  ∃ n, (step b)^[n] s = t ∧ t.phase ≠ .packet ∧ ∀ m < n, ((step b)^[m] s).phase = .packet

structure Terminates (b : Buffer) (d : Decoder) : Prop where
  ends : ∃ n, ((step b)^[n] (State.init d)).phase = .done
  inner : ∀ s, innerPass b s = true → (step b s).phase = .packet → s.p + 1 ≤ (step b s).p
  outer : ∀ s, outerPass b s = true → ∃ t, OuterRest b (step b s) t ∧ (t.phase = .done ∨ s.p + 16 ≤ t.p)
  innerPasses : ∀ n, visits (step b) (innerPass b) (State.init d) n ≤ b.len
  outerPasses : ∀ n, visits (step b) (outerPass b) (State.init d) n ≤ b.len / 16 + 1

section

variable {b : Buffer} {s : State}

theorem innerPass_eq_true : innerPass b s = true ↔ s.phase = .packet ∧ s.p < b.len := by simp [innerPass]

theorem outerPass_eq_true : outerPass b s = true ↔ s.phase = .sync ∧ s.p < b.len := by simp [outerPass]

/-- What a step inside the inner loop does to the cursor. -/
inductive Advance (b : Buffer) (s : State) : State → Prop where
  | stays {t : State} (phase : t.phase = .packet) (inside : s.p < b.len) (moved : s.p < t.p)
      (past : psbAt b s.p = true → s.p + 16 ≤ t.p) : Advance b s t
  | leaves {t : State} (phase : t.phase = .sync) (same : t.p = s.p) (absent : psbAt b s.p = false) :
      Advance b s t

theorem advance_step (phase : s.phase = .packet) : Advance b s (step b s) := by
  have forward := packetPass_forward b s.p s.lastIp
  have atPsb : psbAt b s.p = true → (packetPass b s.p s.lastIp).value = .next (s.p + 16) :=
    fun here => packetPass_psb here s.lastIp
  have transition := transition_step b (show s.phase ≠ .done by simp [phase])
  generalize step b s = t at transition
  cases transition with
  | ended sync | synced sync | lost sync => simp [phase] at sync
  | exhausted _ outside =>
    have absent : ¬ psbAt b s.p = true := by
      rw [psbAt_iff]
      omega
    exact .leaves rfl rfl (by simpa using absent)
  | next _ inside pass =>
    rw [pass] at forward atPsb
    exact .stays phase inside forward fun here => (Pass.next.inj (atPsb here)).ge
  | tip _ inside pass =>
    rw [pass] at forward atPsb
    exact .stays phase inside forward fun here => absurd (atPsb here) (by simp)
  | unknown _ inside pass =>
    -- the pass at a PSB is known
    have absent : ¬ psbAt b s.p = true := by
      intro here
      rw [pass] at atPsb
      exact absurd (atPsb here) (by simp)
    exact .leaves rfl rfl (by simpa using absent)

/-! ## One pass of the outer loop -/

theorem OuterRest.of_step {t : State} (phase : s.phase = .packet) (rest : OuterRest b (step b s) t) :
    OuterRest b s t := by
  obtain ⟨n, reached, left, inside⟩ := rest
  refine ⟨n + 1, reached, left, fun m less => ?_⟩
  cases m with
  | zero => exact phase
  | succ m => exact inside m (by omega)

/-- The inner loop is left, and the cursor has not moved back. -/
theorem outerRest_of_packet (phase : s.phase = .packet) : ∃ t, OuterRest b s t ∧ s.p ≤ t.p := by
  -- every pass that stays in the loop leaves fewer bytes
  induction left : b.len - s.p using Nat.strong_induction_on generalizing s with
  | _ left ih =>
    cases advance_step (b := b) phase with
    | stays packet inside moved past =>
      obtain ⟨t, rest, position⟩ := ih _ (by omega) packet rfl
      exact ⟨t, rest.of_step phase, by omega⟩
    | leaves sync same absent =>
      exact ⟨step b s, .of_step phase ⟨0, rfl, by simp [sync], by simp⟩, same.ge⟩

theorem outerRest_of_psb (phase : s.phase = .packet) (here : psbAt b s.p = true) :
    ∃ t, OuterRest b s t ∧ s.p + 16 ≤ t.p := by
  cases advance_step (b := b) phase with
  | stays packet inside moved past =>
    obtain ⟨t, rest, position⟩ := outerRest_of_packet (b := b) packet
    exact ⟨t, rest.of_step phase, (past here).trans position⟩
  | leaves sync same absent => simp [here] at absent

theorem outerRest_of_outerPass (outer : outerPass b s = true) :
    ∃ t, OuterRest b (step b s) t ∧ (t.phase = .done ∨ s.p + 16 ≤ t.p) := by
  obtain ⟨phase, inside⟩ := outerPass_eq_true.mp outer
  cases found : (memmem b s.p).value with
  | none =>
    rw [(Transition.lost phase inside found).eq_step]
    exact ⟨_, ⟨0, rfl, by simp, by simp⟩, .inl rfl⟩
  | some q =>
    obtain ⟨low, -, here⟩ := memmem_some found
    have synced := (Transition.synced phase inside found).eq_step
    have packet : (step b s).phase = .packet := by rw [synced]
    have position : (step b s).p = q := by rw [synced]
    obtain ⟨t, rest, past⟩ := outerRest_of_psb packet (position.symm ▸ here)
    exact ⟨t, rest, .inr (by omega)⟩

/-! ## The numbers of passes -/

/-- What a step of the outer loop does to the cursor. -/
inductive Search (b : Buffer) (s : State) : State → Prop where
  | ended {t : State} (phase : t.phase = .done) : Search b s t
  | synced {t : State} (phase : t.phase = .packet) (inside : t.p < b.len) (low : s.p ≤ t.p)
      (here : psbAt b t.p = true) : Search b s t

theorem search_step (phase : s.phase = .sync) : Search b s (step b s) := by
  have transition := transition_step b (show s.phase ≠ .done by simp [phase])
  generalize step b s = t at transition
  cases transition with
  | ended | lost => exact .ended rfl
  | synced _ inside found =>
    obtain ⟨low, high, here⟩ := memmem_some found
    exact .synced rfl high low here
  | exhausted packet | next packet | tip packet | unknown packet => simp [phase] at packet

/-- The passes of the inner loop so far against the cursor. -/
structure InnerCount (b : Buffer) (count : Nat) (s : State) : Prop where
  bound : count ≤ b.len
  packet : s.phase = .packet → count ≤ s.p
  -- the last pass may have been at the cursor, but then no PSB stands there
  sync : s.phase = .sync → count ≤ s.p ∨ count ≤ s.p + 1 ∧ psbAt b s.p = false

theorem innerCount_step {count : Nat} (counted : InnerCount b count s) :
    InnerCount b (count + if innerPass b s then 1 else 0) (step b s) := by
  cases phase : s.phase with
  | done =>
    rw [step_of_done b s phase]
    simpa [innerPass, phase] using counted
  | sync =>
    have none : (if innerPass b s then 1 else 0) = 0 := by simp [innerPass, phase]
    rw [none]
    cases search_step (b := b) phase with
    | ended done => exact ⟨counted.bound, by simp [done], by simp [done]⟩
    | synced packet inside low here =>
      refine ⟨counted.bound, fun _ => ?_, by simp [packet]⟩
      rcases counted.sync phase with behind | ⟨close, absent⟩
      · exact behind.trans low
      · have apart : s.p ≠ (step b s).p := by
          intro equal
          rw [equal, here] at absent
          cases absent
        omega
  | packet =>
    have behind := counted.packet phase
    have bound := counted.bound
    have one : (if innerPass b s then 1 else 0) = if s.p < b.len then 1 else 0 := by simp [innerPass, phase]
    rw [one]
    cases advance_step (b := b) phase with
    | stays packet inside moved past =>
      rw [if_pos inside]
      exact ⟨by omega, fun _ => by omega, by simp [packet]⟩
    | leaves sync same absent =>
      refine ⟨by split_ifs <;> omega, by simp [sync], fun _ => .inr ⟨?_, by rw [same, absent]⟩⟩
      rw [same]
      split_ifs <;> omega

/-- The passes of the outer loop so far against the cursor. -/
structure OuterCount (b : Buffer) (count : Nat) (s : State) : Prop where
  bound : count ≤ b.len / 16 + 1
  -- the PSB of the current pass may still be at the cursor
  packet : s.phase = .packet → 16 * count ≤ s.p ∨ 16 * count ≤ s.p + 16 ∧ psbAt b s.p = true
  sync : s.phase = .sync → 16 * count ≤ s.p

theorem outerCount_step {count : Nat} (counted : OuterCount b count s) :
    OuterCount b (count + if outerPass b s then 1 else 0) (step b s) := by
  cases phase : s.phase with
  | done =>
    rw [step_of_done b s phase]
    simpa [outerPass, phase] using counted
  | sync =>
    have behind := counted.sync phase
    have bound := counted.bound
    have one : (if outerPass b s then 1 else 0) = if s.p < b.len then 1 else 0 := by simp [outerPass, phase]
    rw [one]
    cases search_step (b := b) phase with
    | ended done => exact ⟨by split_ifs <;> omega, by simp [done], by simp [done]⟩
    | synced packet inside low here =>
      rw [if_pos (by omega)]
      exact ⟨by omega, fun _ => .inr ⟨by omega, here⟩, by simp [packet]⟩
  | packet =>
    have none : (if outerPass b s then 1 else 0) = 0 := by simp [outerPass, phase]
    rw [none]
    cases advance_step (b := b) phase with
    | stays packet inside moved past =>
      refine ⟨counted.bound, fun _ => .inl ?_, by simp [packet]⟩
      rcases counted.packet phase with behind | ⟨close, here⟩
      · omega
      · exact close.trans (past here)
    | leaves sync same absent =>
      refine ⟨counted.bound, by simp [sync], fun _ => ?_⟩
      rcases counted.packet phase with behind | ⟨-, here⟩
      · rw [same]
        exact behind
      · rw [absent] at here
        cases here

end

/-- The decode of every buffer ends, and its passes are bounded by the length of the buffer. -/
theorem decode_terminates (b : Buffer) (d : Decoder) : Terminates b d where
  ends := ⟨_, decode_done b d⟩
  inner := by
    intro s inner packet
    obtain ⟨phase, -⟩ := innerPass_eq_true.mp inner
    cases advance_step (b := b) phase with
    | stays _ _ moved => exact moved
    | leaves sync => simp [sync] at packet
  outer := fun s => outerRest_of_outerPass
  innerPasses := by
    intro n
    have initial : InnerCount b 0 (State.init d) := ⟨by omega, fun _ => by omega, fun _ => .inl (by omega)⟩
    exact (visits_invariant (fun _ _ => innerCount_step) initial n).bound
  outerPasses := by
    intro n
    have initial : OuterCount b 0 (State.init d) := ⟨by omega, fun _ => .inl (by omega), fun _ => by omega⟩
    exact (visits_invariant (fun _ _ => outerCount_step) initial n).bound

end DevFuzz.PT
