import Mathlib.Data.List.Basic

/-! # Search by levels

`levels` goes from some nodes along the edges, one level after the other and at most a
given number of levels deep, and acts on a node when it is first met.  The nodes met
are those a bounded number of hops away (`levels_spec`), although the search does not
go on from a node it has seen before.
-/

namespace DevFuzz.Lib.Levels

section

variable {α : Type} (next : α → List α)

/-- There are `n` hops from the first node to the second. -/
def Hops : Nat → α → α → Prop
  | 0, a, b => a = b
  | n + 1, a, b => ∃ c ∈ next a, Hops n c b

/-- The edges stay inside the list, those of the active nodes apart. -/
def ClosedBut (active seen : List α) : Prop := ∀ a ∈ seen, a ∉ active → ∀ b ∈ next a, b ∈ seen

variable {next}

/-- Hops that leave the list leave it from an active node. -/
theorem ClosedBut.hops {active seen : List α} (closed : ClosedBut next active seen) {n : Nat} {a b : α}
    (start : a ∈ seen) (hops : Hops next n a b) : b ∈ seen ∨ ∃ c ∈ active, ∃ k < n, Hops next (k + 1) c b := by
  induction n generalizing a with
  | zero => exact .inl (hops ▸ start)
  | succ n ih =>
    by_cases here : a ∈ active
    · exact .inr ⟨a, here, n, Nat.lt_succ_self n, hops⟩
    · obtain ⟨c, edge, hops⟩ := hops
      cases ih (closed a start here c edge) hops with
      | inl inside => exact .inl inside
      | inr later =>
        obtain ⟨c, member, k, below, hops⟩ := later
        exact .inr ⟨c, member, k, Nat.lt_succ_of_lt below, hops⟩

end

variable {α σ : Type}

structure Sweep (α σ : Type) where
  seen : List α
  met : List α
  state : σ

variable [DecidableEq α] (next : α → List α) (act : σ → α → σ)

def Sweep.meet (s : Sweep α σ) (a : α) : Sweep α σ :=
  if a ∈ s.seen then s else ⟨s.seen ++ [a], s.met ++ [a], act s.state a⟩

def level (worklist seen : List α) (state : σ) : Sweep α σ :=
  worklist.foldl (fun s a => (next a).foldl (Sweep.meet act) s) ⟨seen, [], state⟩

def levels : Nat → List α → List α → σ → List α × σ
  | 0, _, seen, state => (seen, state)
  | depth + 1, worklist, seen, state =>
    if worklist.isEmpty then (seen, state) else
      let s := level next act worklist seen state
      levels depth s.met s.seen s.state

variable {next act}

theorem foldl_meet (l : List α) (s : Sweep α σ) :
    ∃ new, l.foldl (Sweep.meet act) s = ⟨s.seen ++ new, s.met ++ new, new.foldl act s.state⟩ ∧
      ∀ a, a ∈ new ↔ a ∈ l ∧ a ∉ s.seen := by
  induction l generalizing s with
  | nil => exact ⟨[], by simp, by simp⟩
  | cons b l ih =>
    rw [List.foldl_cons, Sweep.meet]
    split_ifs with seen
    · obtain ⟨new, result, fresh⟩ := ih s
      refine ⟨new, result, fun a => (fresh a).trans ⟨fun ⟨mem, out⟩ => ⟨List.mem_cons_of_mem b mem, out⟩, ?_⟩⟩
      rintro ⟨mem, out⟩
      exact ⟨(List.mem_cons.mp mem).resolve_left fun same => out (same ▸ seen), out⟩
    · obtain ⟨new, result, fresh⟩ := ih ⟨s.seen ++ [b], s.met ++ [b], act s.state b⟩
      refine ⟨b :: new, by simpa using result, fun a => ?_⟩
      rw [List.mem_cons, fresh a]
      by_cases same : a = b
      · simp [same, seen]
      · simp [same]

theorem level_spec (worklist seen : List α) (state : σ) :
    ∃ new, level next act worklist seen state = ⟨seen ++ new, new, new.foldl act state⟩ ∧
      ∀ a, a ∈ new ↔ (∃ b ∈ worklist, a ∈ next b) ∧ a ∉ seen := by
  obtain ⟨new, result, fresh⟩ := foldl_meet (worklist.flatMap next) ⟨seen, [], state⟩
  refine ⟨new, ?_, fun a => by rw [fresh, List.mem_flatMap]⟩
  rw [level, ← List.foldl_flatMap, result, List.nil_append]

/-- What is met in at most `depth` levels is what is at most that many hops away. -/
theorem levels_spec (depth : Nat) {worklist seen : List α} (state : σ) (closed : ClosedBut next worklist seen) :
    ∃ new, levels next act depth worklist seen state = (seen ++ new, new.foldl act state) ∧
      ∀ a, a ∈ seen ++ new ↔ a ∈ seen ∨ ∃ b ∈ worklist, ∃ k < depth, Hops next (k + 1) b a := by
  induction depth generalizing worklist seen state with
  | zero => exact ⟨[], by simp [levels], by simp⟩
  | succ depth ih =>
    rw [levels]
    split_ifs with empty
    · rw [List.isEmpty_iff.mp empty]
      exact ⟨[], by simp, by simp⟩
    · obtain ⟨new, result, fresh⟩ := level_spec worklist seen state
      have enter : ∀ b ∈ worklist, ∀ c ∈ next b, c ∈ seen ++ new := by
        intro b active c edge
        by_cases old : c ∈ seen
        · exact List.mem_append_left _ old
        · exact List.mem_append_right _ ((fresh c).mpr ⟨⟨b, active, edge⟩, old⟩)
      have closed' : ClosedBut next new (seen ++ new) := by
        intro a mem old b edge
        by_cases active : a ∈ worklist
        · exact enter a active b edge
        · have inSeen := (List.mem_append.mp mem).resolve_right old
          exact List.mem_append_left _ (closed a inSeen active b edge)
      obtain ⟨later, result', reached⟩ := ih (new.foldl act state) closed'
      refine ⟨new ++ later, ?_, fun a => ?_⟩
      · rw [result, result', List.append_assoc, List.foldl_append]
      · rw [← List.append_assoc, reached a]
        constructor
        · rintro (mem | ⟨b, mem, k, below, hops⟩)
          · cases List.mem_append.mp mem with
            | inl old => exact .inl old
            | inr new =>
              obtain ⟨⟨b, active, edge⟩, -⟩ := (fresh a).mp new
              exact .inr ⟨b, active, 0, Nat.succ_pos _, a, edge, rfl⟩
          · obtain ⟨⟨c, active, edge⟩, -⟩ := (fresh b).mp mem
            exact .inr ⟨c, active, k + 1, Nat.succ_lt_succ below, b, edge, hops⟩
        · rintro (old | ⟨b, active, k, below, c, edge, hops⟩)
          · exact .inl (List.mem_append_left _ old)
          · cases closed'.hops (enter b active c edge) hops with
            | inl mem => exact .inl mem
            | inr later =>
              obtain ⟨d, mem, i, small, hops⟩ := later
              exact .inr ⟨d, mem, i, by omega, hops⟩

end DevFuzz.Lib.Levels
