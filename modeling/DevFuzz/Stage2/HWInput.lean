import DevFuzz.Lib.Logged
import Mathlib.Algebra.Ring.Nat

/-! # Fields with a dictionary of interesting values

`HWInput` of `aplib/HWModel.h` as the fuzzing loop uses it: `feedData` replaces a
value of the fuzzer by one of the dictionary, depending on what `rand` returns.

The state of a computation is the stream of the coming results of `rand`.  A
division by zero, which `rand() % dict.size()` is for an empty dictionary, ends the
process.
-/

namespace DevFuzz.Stage2

open DevFuzz.Lib DevFuzz.Lib.Logged

/-- What `rand` returns: a number from 0 to `RAND_MAX`. -/
abbrev RandValue := Fin 2147483648

instance randValue_neZero : NeZero 2147483648 := ⟨by decide⟩

/-- The coming results of `rand`. -/
abbrev Stream := Nat → RandValue

def rand {ε : Type} : Logged ε Stream RandValue := next

/-- `static bool yes(int prob)` -/
def yes {ε : Type} (prob : Int) : Logged ε Stream Bool := do
  let r ← rand
  pure (decide ((r.val % 100 : Nat) + 1 ≤ prob))

def rand64 {ε : Type} : Logged ε Stream UInt64 := do
  let high ← rand
  let low ← rand
  pure (UInt64.ofNat high.val <<< 32 ||| UInt64.ofNat low.val)

section

variable {ε : Type} {P : ε → Prop} {I : Stream → Prop} (keeps : ∀ s, I s → I fun n => s (n + 1))

include keeps

theorem sat_rand : Sat I P rand fun _ => I := sat_next keeps

theorem returns_rand : Returns I (rand : Logged ε _ _) fun _ => I := returns_next keeps

theorem sat_rand64 : Sat I P rand64 fun _ => I :=
  sat_bind (sat_rand keeps) fun _ => sat_bind (sat_rand keeps) fun _ => sat_pure fun _ start => start

theorem returns_rand64 : Returns I (rand64 : Logged ε _ _) fun _ => I :=
  returns_bind (returns_rand keeps) fun _ => returns_bind (returns_rand keeps) fun _ =>
    returns_pure fun _ start => start

end

/-- The modes `feedData` tells apart: `RANDOM_MODE` and any other. -/
inductive Mode where
  | random
  | indexed
  deriving DecidableEq, Repr

/-- The part of `HWInput` that `feedData` and `size` use. -/
structure HWInput where
  nBytes : Nat
  nBytes_pos : 0 < nBytes
  bitsCombinations : List UInt64
  dict : List UInt64
  useModelProb : Int

namespace HWInput

variable {ε : Type} (input : HWInput) (mode : Mode) (original : UInt64)

/-- `dict[n % dict.size()]` -/
def pick (n : Nat) : Logged ε Stream UInt64 :=
  if inside : 0 < input.dict.length then
    pure (input.dict.get ⟨n % input.dict.length, Nat.mod_lt n inside⟩)
  else die

def modelRand : Logged ε Stream UInt64 := do
  let c ← rand
  input.pick c.val

def hybridRand : Logged ε Stream UInt64 :=
  if inside : 0 < input.bitsCombinations.length then do
    let c ← rand
    let val := input.bitsCombinations.get ⟨c.val % input.bitsCombinations.length, Nat.mod_lt _ inside⟩
    pure (val ||| original)
  else pure original

def feedData : Logged ε Stream UInt64 :=
  match mode with
  | .random => do
    if ← yes input.useModelProb then input.modelRand
    else if ← yes 50 then input.hybridRand original
    else pure original
  | .indexed => input.pick original.toNat

/-! ## When a value comes back -/

/-- Some results of `rand` let `feedData` return. -/
def drawable : Bool := input.dict ≠ [] ∨ mode = .random ∧ input.useModelProb < 100

/-- Every result of `rand` lets `feedData` return. -/
def alwaysDrawable : Bool := input.dict ≠ [] ∨ mode = .random ∧ input.useModelProb ≤ 0

/-- `feedData` returns when `rand` starts with `r`. -/
def drawnWith (r : RandValue) : Bool :=
  input.dict ≠ [] ∨ mode = .random ∧ input.useModelProb < (r.val % 100 : Nat) + 1

/-- How many results of `rand` `feedData` uses up when it returns. -/
def draws (s : Stream) : Nat :=
  match mode with
  -- the third is the combination that `hybrid_rand` picks
  | .random =>
    if input.useModelProb < ((s 0).val % 100 : Nat) + 1 ∧ (s 1).val % 100 < 50 ∧ input.bitsCombinations ≠ [] then 3
    else 2
  | .indexed => 0

variable {input mode original}

theorem draws_random_of_high {s : Stream} (high : 50 ≤ (s 1).val % 100) : input.draws .random s = 2 :=
  if_neg fun low => absurd low.2.1 (Nat.not_lt.mpr high)

theorem drawable_of_drawnWith {r : RandValue} (drawn : input.drawnWith mode r = true) :
    input.drawable mode = true := by
  simp only [drawnWith, drawable, decide_eq_true_eq] at drawn ⊢
  refine drawn.imp_right fun ⟨random, low⟩ => ⟨random, ?_⟩
  have := Nat.mod_lt r.val (show 0 < 100 by omega)
  omega

theorem drawnWith_of_drawable {r : RandValue} (high : r.val % 100 = 99)
    (drawable : input.drawable mode = true) : input.drawnWith mode r = true := by
  simp only [drawnWith, HWInput.drawable, decide_eq_true_eq, high] at drawable ⊢
  refine drawable.imp_right fun ⟨random, low⟩ => ⟨random, ?_⟩
  omega

theorem drawnWith_of_alwaysDrawable (always : input.alwaysDrawable mode = true) (r : RandValue) :
    input.drawnWith mode r = true := by
  simp only [drawnWith, alwaysDrawable, decide_eq_true_eq] at always ⊢
  refine always.imp_right fun ⟨random, low⟩ => ⟨random, ?_⟩
  omega

theorem alwaysDrawable_of_drawnWith_zero (drawn : input.drawnWith mode 0 = true) :
    input.alwaysDrawable mode = true := by
  simp only [drawnWith, alwaysDrawable, decide_eq_true_eq] at drawn ⊢
  refine drawn.imp_right fun ⟨random, low⟩ => ⟨random, ?_⟩
  simp at low
  omega

@[simp] theorem yes_bind {α : Type} (prob : Int) (f : Bool → Logged ε Stream α) (s : Stream) :
    (yes prob >>= f).run s =
      (f (decide (((s 0).val % 100 : Nat) + 1 ≤ prob))).run fun n => s (n + 1) := rfl

theorem pick_apply (ε : Type) (input : HWInput) (n : Nat) (s : Stream) :
    (∃ value, (input.pick n : Logged ε _ _).run s = ([], some (value, s)) ∧ input.dict ≠ []) ∨
      ((input.pick n : Logged ε _ _).run s = ([], none) ∧ input.dict = []) := by
  unfold pick
  by_cases inside : 0 < input.dict.length
  · rw [dif_pos inside]
    exact .inl ⟨_, rfl, List.ne_nil_of_length_pos inside⟩
  · rw [dif_neg inside]
    exact .inr ⟨rfl, List.length_eq_zero_iff.mp (Nat.eq_zero_of_not_pos inside)⟩

/-- What `feedData` does: it returns or divides by zero, and uses up a part of the stream. -/
theorem feedData_apply (ε : Type) (input : HWInput) (mode : Mode) (original : UInt64) (s : Stream) :
    (∃ value, (input.feedData mode original : Logged ε _ _).run s =
          ([], some (value, fun n => s (n + input.draws mode s))) ∧ input.drawnWith mode (s 0) = true) ∨
      ((input.feedData mode original : Logged ε _ _).run s = ([], none) ∧
        input.drawnWith mode (s 0) = false) := by
  cases mode with
  | indexed =>
    rcases pick_apply ε input original.toNat s with ⟨value, returned, some⟩ | ⟨died, empty⟩
    · exact .inl ⟨value, returned, by simp [drawnWith, some]⟩
    · exact .inr ⟨died, by simp [drawnWith, empty]⟩
  | random =>
    -- the first draw decides for the model, the second for `hybrid_rand` or a plain value
    simp only [feedData, yes_bind]
    by_cases drawn : ((s 0).val % 100 : Nat) + 1 ≤ input.useModelProb
    · simp only [drawn, decide_true, ↓reduceIte]
      have two : input.draws .random s = 2 := if_neg fun low => absurd low.1 (Int.not_lt.mpr drawn)
      rcases pick_apply ε input (s 1).val fun n => s (n + 2) with
        ⟨value, returned, some⟩ | ⟨died, empty⟩
      · exact .inl ⟨value, two ▸ returned, by simp [drawnWith, some]⟩
      · refine .inr ⟨died, ?_⟩
        simp only [drawnWith, empty, ne_eq, not_true_eq_false, false_or, true_and, decide_eq_false_iff_not]
        exact Int.not_lt.mpr drawn
    · have kept : input.drawnWith .random (s 0) = true := by
        simp only [drawnWith, decide_eq_true_eq]
        exact .inr ⟨trivial, Int.not_le.mp drawn⟩
      simp only [drawn, decide_false, Bool.false_eq_true, ↓reduceIte, yes_bind]
      by_cases mixed : ((s 1).val % 100 : Nat) + 1 ≤ (50 : Int)
      · simp only [mixed, decide_true, ↓reduceIte, hybridRand]
        split
        case isTrue inside =>
          have three : input.draws .random s = 3 :=
            if_pos ⟨Int.not_le.mp drawn, by omega, List.ne_nil_of_length_pos inside⟩
          rw [three]
          exact .inl ⟨_, rfl, kept⟩
        case isFalse outside =>
          have two : input.draws .random s = 2 :=
            if_neg fun low => outside (List.length_pos_iff.mpr low.2.2)
          rw [two]
          exact .inl ⟨_, rfl, kept⟩
      · simp only [mixed, decide_false, Bool.false_eq_true, ↓reduceIte]
        rw [draws_random_of_high (by omega)]
        exact .inl ⟨_, rfl, kept⟩

/-- `rand` always returns `r`. -/
def Constant (r : RandValue) (s : Stream) : Prop := ∀ n, s n = r

section

variable {P : ε → Prop}

/-- `feedData` logs nothing, and returns from a field it can draw from only. -/
theorem sat_feedData :
    Sat (fun _ => True) P (input.feedData mode original) fun _ _ => input.drawable mode = true := by
  intro s _
  rcases feedData_apply ε input mode original s with
    ⟨value, returned, drawn⟩ | ⟨died, -⟩
  · exact ⟨by simp [log, returned], fun _ _ _ => drawable_of_drawnWith drawn⟩
  · exact ⟨by simp [log, died], by simp [result, died]⟩

theorem sat_feedData_constant {r : RandValue} : Sat (Constant r) P (input.feedData mode original)
    fun _ s => input.drawnWith mode r = true ∧ Constant r s := by
  intro s constant
  rcases feedData_apply ε input mode original s with
    ⟨value, returned, drawn⟩ | ⟨died, -⟩
  · refine ⟨by simp [log, returned], ?_⟩
    intro a t ended
    obtain ⟨rfl, rfl⟩ : value = a ∧ (fun n => s (n + input.draws mode s)) = t := by simpa [result, returned] using ended
    exact ⟨constant 0 ▸ drawn, fun n => constant (n + _)⟩
  · exact ⟨by simp [log, died], by simp [result, died]⟩

theorem returns_feedData (always : input.alwaysDrawable mode = true) :
    Returns (fun _ => True) (input.feedData mode original : Logged ε _ _) fun _ _ => True := by
  intro s _
  rcases feedData_apply ε input mode original s with
    ⟨value, returned, -⟩ | ⟨-, drawn⟩
  · exact ⟨value, _, by rw [result, returned], trivial⟩
  · simp [drawnWith_of_alwaysDrawable always] at drawn

theorem returns_feedData_constant {r : RandValue} (drawn : input.drawnWith mode r = true) :
    Returns (Constant r) (input.feedData mode original : Logged ε _ _) fun _ => Constant r := by
  intro s constant
  rcases feedData_apply ε input mode original s with
    ⟨value, returned, -⟩ | ⟨-, failed⟩
  · exact ⟨value, _, by rw [result, returned], fun n => constant (n + _)⟩
  · simp [constant 0, drawn] at failed

end

end HWInput

end DevFuzz.Stage2
