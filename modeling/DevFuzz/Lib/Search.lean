import Mathlib.Data.Fintype.Card
import Mathlib.Data.List.Nodup

/-! # Walks and saturation

Loops that are written with `Option` for want of fuel.  `Walker.run` is a
depth-first walk that carries a label along its edges and visits every node at
most once; `repeatUntil` repeats a body until it changes nothing.  The rules give
total correctness: there is a result, and it has the stated property.  The rules `_rel` let two
such loops run side by side: related states stay related, and one has a result if the other has.
-/

namespace DevFuzz.Lib

/-! ## Folds -/

section

variable {σ α : Type}

/-- Each element establishes its `Q`, and what is established stays. -/
theorem foldlM_spec {f : σ → α → Option σ} {I : σ → Prop} {Q : α → σ → Prop} {l : List α}
    (step : ∀ s a, a ∈ l → I s → ∃ t, f s a = some t ∧ I t ∧ Q a t ∧ ∀ b, Q b s → Q b t) {s : σ} (initial : I s) :
    ∃ t, l.foldlM f s = some t ∧ I t ∧ (∀ a ∈ l, Q a t) ∧ ∀ b, Q b s → Q b t := by
  induction l generalizing s with
  | nil => exact ⟨s, rfl, initial, nofun, fun _ => id⟩
  | cons a rest ih =>
    obtain ⟨t, first, held, here, kept⟩ := step s a List.mem_cons_self initial
    obtain ⟨u, later, holds, all, keeps⟩ := ih (fun s b mem => step s b (List.mem_cons_of_mem a mem)) held
    refine ⟨u, ?_, holds, ?_, fun b => keeps b ∘ kept b⟩
    · rw [List.foldlM_cons, first]
      exact later
    · intro b mem
      rcases List.mem_cons.mp mem with rfl | mem
      · exact keeps b here
      · exact all b mem

/-- A loop with an element that has no result has none. -/
theorem foldlM_eq_none {f : σ → α → Option σ} {l : List α} {a : α} (member : a ∈ l) (fails : ∀ s, f s a = none) (s : σ) :
    l.foldlM f s = none := by
  induction l generalizing s with
  | nil => cases member
  | cons b rest ih =>
    rw [List.foldlM_cons]
    cases member with
    | head => rw [fails]; rfl
    | tail _ later =>
      cases f s b with
      | none => rfl
      | some t => exact ih later t

theorem foldlM_returns {f : σ → α → Option σ} {I : σ → Prop} {l : List α}
    (step : ∀ s a, a ∈ l → I s → ∃ t, f s a = some t ∧ I t) {s : σ} (initial : I s) :
    ∃ t, l.foldlM f s = some t ∧ I t := by
  have step : ∀ s a, a ∈ l → I s → ∃ t, f s a = some t ∧ I t ∧ True ∧ ∀ _ : α, True → True := by
    intro s a mem held
    obtain ⟨t, result, keeps⟩ := step s a mem held
    exact ⟨t, result, keeps, trivial, fun _ => id⟩
  obtain ⟨t, result, holds, -⟩ := foldlM_spec step initial
  exact ⟨t, result, holds⟩

end

section

variable {σ τ α : Type} {R : σ → τ → Prop}

theorem rel_bind {σ' τ' : Type} {S : σ' → τ' → Prop} {x : Option σ} {y : Option τ} {f : σ → Option σ'} {g : τ → Option τ'}
    (first : Option.Rel R x y) (rest : ∀ s t, R s t → Option.Rel S (f s) (g t)) :
    Option.Rel S (x.bind f) (y.bind g) := by
  cases first with
  | none => exact .none
  | some related => exact rest _ _ related

theorem rel_map {σ' τ' : Type} {S : σ' → τ' → Prop} {x : Option σ} {y : Option τ} {f : σ → σ'} {g : τ → τ'}
    (first : Option.Rel R x y) (rest : ∀ s t, R s t → S (f s) (g t)) : Option.Rel S (x.map f) (y.map g) := by
  cases first with
  | none => exact .none
  | some related => exact .some (rest _ _ related)

theorem foldlM_rel {f : σ → α → Option σ} {g : τ → α → Option τ}
    (step : ∀ s t a, R s t → Option.Rel R (f s a) (g t a)) (l : List α) {s : σ} {t : τ} (initial : R s t) :
    Option.Rel R (l.foldlM f s) (l.foldlM g t) := by
  induction l generalizing s t with
  | nil => exact .some initial
  | cons a rest ih =>
    rw [List.foldlM_cons, List.foldlM_cons]
    exact rel_bind (step s t a initial) fun _ _ related => ih related

end

/-! ## Walks -/

structure Walker (ν ε σ : Type) where
  visit : ν → ε → σ → σ
  next : ν → ε → List (ν × ε)

namespace Walker

variable {ν ε σ : Type} (w : Walker ν ε σ)

/-- The nodes that are new in `seen'` have all their next nodes in it. -/
structure Closes (D : ν → ε → Prop) (seen seen' : List ν) : Prop where
  subset : seen ⊆ seen'
  closed : ∀ v ∈ seen', v ∉ seen → ∃ e, D v e ∧ ∀ n ∈ w.next v e, n.1 ∈ seen'

variable {w} {D : ν → ε → Prop}

theorem Closes.refl (seen : List ν) : w.Closes D seen seen := ⟨List.Subset.refl _, fun _ mem new => absurd mem new⟩

theorem Closes.trans {a b c : List ν} (first : w.Closes D a b) (second : w.Closes D b c) : w.Closes D a c := by
  refine ⟨List.Subset.trans first.subset second.subset, fun v mem new => ?_⟩
  by_cases early : v ∈ b
  · obtain ⟨e, label, next⟩ := first.closed v early new
    exact ⟨e, label, fun n mem => second.subset (next n mem)⟩
  · exact second.closed v mem early

variable [DecidableEq ν]

variable (w) in
def run : Nat → ν × ε → List ν × σ → Option (List ν × σ)
  | 0, _, _ => none
  | fuel + 1, (v, e), (seen, s) =>
    if v ∈ seen then some (seen, s)
    else (w.next v e).foldlM (fun st n => run fuel n st) (v :: seen, w.visit v e s)

variable {I : List ν → σ → Prop}

/-- The walk returns when there is fuel for every node that is not seen yet. -/
theorem run_spec [Fintype ν] (labels : ∀ v e, D v e → ∀ n ∈ w.next v e, D n.1 n.2)
    (visits : ∀ v e seen s, D v e → I seen s → I (v :: seen) (w.visit v e s)) (fuel : Nat) {n : ν × ε}
    {t : List ν × σ} (label : D n.1 n.2) (inv : I t.1 t.2) (nodup : t.1.Nodup)
    (enough : Fintype.card ν < fuel + t.1.length) :
    ∃ t', w.run fuel n t = some t' ∧ (I t'.1 t'.2 ∧ t'.1.Nodup ∧ w.Closes D t.1 t'.1) ∧ n.1 ∈ t'.1 := by
  induction fuel generalizing n t with
  | zero =>
    have := nodup.length_le_card
    omega
  | succ fuel ih =>
    obtain ⟨v, e⟩ := n
    obtain ⟨seen, s⟩ := t
    by_cases old : v ∈ seen
    · exact ⟨(seen, s), if_pos old, ⟨inv, nodup, .refl seen⟩, old⟩
    · -- the fold over the next nodes only adds to `v :: seen`
      obtain ⟨t', result, ⟨inv', nodup', closes⟩, all, -⟩ := foldlM_spec (l := w.next v e)
        (f := fun t n => w.run fuel n t)
        (I := fun t => I t.1 t.2 ∧ t.1.Nodup ∧ w.Closes D (v :: seen) t.1) (Q := fun n t => n.1 ∈ t.1)
        (fun t n mem inv => by
          have longer : (v :: seen).length ≤ t.1.length :=
            (List.Nodup.subperm (List.nodup_cons.mpr ⟨old, nodup⟩) inv.2.2.subset).length_le
          simp only [List.length_cons] at longer enough
          obtain ⟨t', result, ⟨inv', nodup', closes⟩, reached⟩ :=
            ih (labels v e label n mem) inv.1 inv.2.1 (by omega)
          exact ⟨t', result, ⟨inv', nodup', inv.2.2.trans closes⟩, reached, fun b seen => closes.subset seen⟩)
        (s := (v :: seen, w.visit v e s))
        ⟨visits v e seen s label inv, List.nodup_cons.mpr ⟨old, nodup⟩, .refl _⟩
      refine ⟨t', (if_neg old).trans result, ⟨inv', nodup', ?_⟩, closes.subset List.mem_cons_self⟩
      refine ⟨fun u mem => closes.subset (List.mem_cons_of_mem v mem), fun u mem new => ?_⟩
      by_cases here : u = v
      · subst here
        exact ⟨e, label, all⟩
      · exact closes.closed u mem (by simp [here, new])

/-- Two walks along the same edges. -/
theorem run_rel {τ : Type} {w' : Walker ν ε τ} {R : σ → τ → Prop} (edges : w'.next = w.next)
    (visits : ∀ v e s t, R s t → R (w.visit v e s) (w'.visit v e t)) (fuel : Nat) (n : ν × ε) {st : List ν × σ}
    {st' : List ν × τ} (initial : st.1 = st'.1 ∧ R st.2 st'.2) :
    Option.Rel (fun a b => a.1 = b.1 ∧ R a.2 b.2) (w.run fuel n st) (w'.run fuel n st') := by
  induction fuel generalizing n st st' with
  | zero => exact .none
  | succ fuel ih =>
    obtain ⟨v, e⟩ := n
    obtain ⟨seen, s⟩ := st
    obtain ⟨seen', t⟩ := st'
    obtain ⟨rfl, related⟩ := initial
    rw [run, run, edges]
    split_ifs
    · exact .some ⟨rfl, related⟩
    · exact foldlM_rel (fun _ _ n held => ih n held) _ ⟨rfl, visits v e s t related⟩

end Walker

/-! ## Saturation -/

section

variable {σ : Type}

/-- `do … while` on a body that may fail. -/
def repeatUntil (body : σ → Option σ) (same : σ → σ → Bool) : Nat → σ → Option σ
  | 0, _ => none
  | fuel + 1, s => (body s).bind fun t => if same s t then some t else repeatUntil body same fuel t

/-- A measure that grows in every round but the last, and is bounded, ends the loop. -/
theorem repeatUntil_spec (body : σ → Option σ) (same : σ → σ → Bool) {P : σ → Prop} {μ : σ → Nat} {bound : Nat}
    (bounded : ∀ s, P s → μ s ≤ bound)
    (rounds : ∀ s, P s → ∃ t, body s = some t ∧ P t ∧ (same s t = true ∨ μ s < μ t)) (fuel : Nat) {s : σ}
    (initial : P s) (enough : bound < fuel + μ s) :
    ∃ s' t, P s' ∧ P t ∧ body s' = some t ∧ same s' t = true ∧ repeatUntil body same fuel s = some t := by
  induction fuel generalizing s with
  | zero =>
    have := bounded s initial
    omega
  | succ fuel ih =>
    obtain ⟨t, result, holds, progress⟩ := rounds s initial
    by_cases stop : same s t = true
    · exact ⟨s, t, initial, holds, result, stop, by rw [repeatUntil, result, Option.bind_some, if_pos stop]⟩
    · have grown := progress.resolve_left stop
      obtain ⟨s', u, before, after, last, unchanged, loop⟩ := ih holds (by omega)
      refine ⟨s', u, before, after, last, unchanged, ?_⟩
      rw [repeatUntil, result, Option.bind_some, if_neg stop, loop]

theorem repeatUntil_rel {τ : Type} {R : σ → τ → Prop} {body : σ → Option σ} {body' : τ → Option τ} {same : σ → σ → Bool}
    {same' : τ → τ → Bool} (rounds : ∀ s t, R s t → Option.Rel R (body s) (body' t))
    (ends : ∀ s s' t t', R s t → R s' t' → same s s' = same' t t') (fuel : Nat) {s : σ} {t : τ} (initial : R s t) :
    Option.Rel R (repeatUntil body same fuel s) (repeatUntil body' same' fuel t) := by
  induction fuel generalizing s t with
  | zero => exact .none
  | succ fuel ih =>
    refine rel_bind (rounds s t initial) fun s' t' related => ?_
    rw [ends s s' t t' initial related]
    split_ifs
    · exact .some related
    · exact ih related

end

end DevFuzz.Lib
