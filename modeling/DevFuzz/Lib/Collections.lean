import Mathlib.Data.List.AList
import Mathlib.Data.List.Basic
import Mathlib.Order.Lattice

/-! # Ordered sets, selections and maps

`OrderedSet` is a set that is kept as a strictly ascending list.  `choose k l` are
the selections of `k` elements of a list, in the order of the list, those with an
earlier element first.  `mapValues` changes every value of a map.
-/

namespace DevFuzz.Lib

/-! ## Ordered sets -/

/-- A set as the strictly ascending list of its elements. -/
structure OrderedSet (α : Type) [LT α] where
  elements : List α
  ascending : elements.Pairwise (· < ·)

namespace OrderedSet

variable {α : Type} [LT α]

def empty : OrderedSet α := ⟨[], List.Pairwise.nil⟩

instance : Membership α (OrderedSet α) := ⟨fun s a => a ∈ s.elements⟩

@[simp] theorem mem_elements {s : OrderedSet α} {a : α} : a ∈ s.elements ↔ a ∈ s := Iff.rfl

@[simp] theorem not_mem_empty {a : α} : a ∉ (empty : OrderedSet α) := List.not_mem_nil

/-- A loop whose steps return and add elements returns and adds all of them. -/
theorem foldlM_adds {β : Type} {f : OrderedSet α → β → Option (OrderedSet α)} {A : β → α → Prop} {l : List β}
    (each : ∀ b ∈ l, ∀ s, ∃ t, f s b = some t ∧ ∀ a, a ∈ t ↔ a ∈ s ∨ A b a) (s : OrderedSet α) :
    ∃ t, l.foldlM f s = some t ∧ ∀ a, a ∈ t ↔ a ∈ s ∨ ∃ b ∈ l, A b a := by
  induction l generalizing s with
  | nil => exact ⟨s, rfl, fun a => by simp⟩
  | cons b rest ih =>
    obtain ⟨here, later⟩ := List.forall_mem_cons.mp each
    obtain ⟨t, first, added⟩ := here s
    obtain ⟨u, second, all⟩ := ih later t
    refine ⟨u, ?_, fun a => ?_⟩
    · rw [List.foldlM_cons, first]
      exact second
    · rw [all, added, or_assoc]
      simp only [List.mem_cons, exists_eq_or_imp]

end OrderedSet

section

variable {α : Type} [LT α] [DecidableLT α]

/-- The list with `a` at its place, unless it is there. -/
def insertOrdered (a : α) : List α → List α
  | [] => [a]
  | b :: rest =>
    if a < b then a :: b :: rest
    else if b < a then b :: insertOrdered a rest
    else b :: rest

instance lawfulOrderLT_of_linearOrder {β : Type} [LinearOrder β] : Std.LawfulOrderLT β := instLawfulOrderLT_mathlib

variable [LE α] [Std.IsLinearOrder α] [Std.LawfulOrderLT α]

theorem mem_insertOrdered {a b : α} {l : List α} : b ∈ insertOrdered a l ↔ b = a ∨ b ∈ l := by
  induction l with
  | nil => simp [insertOrdered]
  | cons c rest ih =>
    unfold insertOrdered
    split_ifs with below above
    · exact List.mem_cons
    · rw [List.mem_cons, List.mem_cons, ih]
      exact or_left_comm
    · have same : a = c := Std.le_antisymm (Std.not_lt.mp above) (Std.not_lt.mp below)
      rw [same, List.mem_cons]
      exact ⟨.inr, fun member => member.elim .inl id⟩

theorem insertOrdered_ascending {a : α} {l : List α} (ascending : l.Pairwise (· < ·)) :
    (insertOrdered a l).Pairwise (· < ·) := by
  induction l with
  | nil => exact List.pairwise_singleton _ a
  | cons c rest ih =>
    obtain ⟨first, later⟩ := List.pairwise_cons.mp ascending
    unfold insertOrdered
    split_ifs with below above
    · refine List.pairwise_cons.mpr ⟨fun b member => ?_, ascending⟩
      rcases List.mem_cons.mp member with rfl | member
      · exact below
      · exact Std.lt_trans below (first b member)
    · refine List.pairwise_cons.mpr ⟨fun b member => ?_, ih later⟩
      rcases mem_insertOrdered.mp member with rfl | member
      · exact above
      · exact first b member
    · exact ascending

omit [Std.IsLinearOrder α] in
theorem insertOrdered_of_mem [Std.IsPreorder α] {a : α} {l : List α} (ascending : l.Pairwise (· < ·)) (member : a ∈ l) :
    insertOrdered a l = l := by
  induction l with
  | nil => cases member
  | cons c rest ih =>
    obtain ⟨first, later⟩ := List.pairwise_cons.mp ascending
    rw [insertOrdered]
    cases member with
    | head => rw [if_neg Std.lt_irrefl, if_neg Std.lt_irrefl]
    | tail _ member => rw [if_neg (Std.not_gt_of_lt (first a member)), if_pos (first a member), ih later member]

namespace OrderedSet

def insert (s : OrderedSet α) (a : α) : OrderedSet α := ⟨insertOrdered a s.elements, insertOrdered_ascending s.ascending⟩

@[simp] theorem mem_insert {s : OrderedSet α} {a b : α} : b ∈ s.insert a ↔ b = a ∨ b ∈ s := mem_insertOrdered

theorem mem_foldl_insert {s : OrderedSet α} {l : List α} {a : α} : a ∈ l.foldl insert s ↔ a ∈ l ∨ a ∈ s := by
  induction l generalizing s with
  | nil => simp
  | cons b rest ih => rw [List.foldl_cons, ih, mem_insert, List.mem_cons, or_assoc, or_left_comm]

theorem insert_of_mem {s : OrderedSet α} {a : α} (member : a ∈ s) : s.insert a = s := by
  cases s with
  | mk elements ascending => simp only [insert, insertOrdered_of_mem ascending member]

theorem foldl_insert_of_forall_mem {s : OrderedSet α} {l : List α} (all : ∀ a ∈ l, a ∈ s) : l.foldl insert s = s := by
  induction l with
  | nil => rfl
  | cons a rest ih =>
    obtain ⟨here, later⟩ := List.forall_mem_cons.mp all
    rw [List.foldl_cons, insert_of_mem here, ih later]

end OrderedSet

end

/-! ## Selections -/

section

variable {α : Type}

def choose : Nat → List α → List (List α)
  | 0, _ => [[]]
  | _ + 1, [] => []
  | k + 1, a :: rest => (choose k rest).map (a :: ·) ++ choose (k + 1) rest

theorem mem_choose {k : Nat} {l p : List α} : p ∈ choose k l ↔ p.Sublist l ∧ p.length = k := by
  induction l generalizing k p with
  | nil =>
    cases k with
    | zero => simp [choose]
    | succ k => simp +contextual [choose]
  | cons a rest ih =>
    cases k with
    | zero => simp +contextual [choose]
    | succ k =>
      simp only [choose, List.mem_append, List.mem_map, ih, List.sublist_cons_iff]
      constructor
      · rintro (⟨q, ⟨sub, rfl⟩, rfl⟩ | ⟨sub, length⟩)
        · exact ⟨.inr ⟨q, rfl, sub⟩, rfl⟩
        · exact ⟨.inl sub, length⟩
      · rintro ⟨sub | ⟨q, rfl, sub⟩, length⟩
        · exact .inr ⟨sub, length⟩
        · exact .inl ⟨q, ⟨sub, Nat.succ.inj length⟩, rfl⟩

theorem choose_eq_nil {k : Nat} {l : List α} (short : l.length < k) : choose k l = [] := by
  rw [List.eq_nil_iff_forall_not_mem]
  intro p member
  obtain ⟨sub, rfl⟩ := mem_choose.mp member
  exact absurd sub.length_le (Nat.not_le.mpr short)

/-- The selections of an ascending list are in lexicographic order. -/
theorem pairwise_choose {r : α → α → Prop} {l : List α} (ascending : l.Pairwise r) (k : Nat) :
    (choose k l).Pairwise (List.Lex r) := by
  induction l generalizing k with
  | nil => cases k <;> simp [choose]
  | cons a rest ih =>
    obtain ⟨first, later⟩ := List.pairwise_cons.mp ascending
    cases k with
    | zero => exact List.pairwise_singleton _ _
    | succ k =>
      rw [choose, List.pairwise_append]
      refine ⟨List.pairwise_map.mpr ((ih later k).imp .cons), ih later (k + 1), ?_⟩
      intro p here q there
      obtain ⟨p, -, rfl⟩ := List.mem_map.mp here
      obtain ⟨sub, length⟩ := mem_choose.mp there
      cases q with
      | nil => cases length
      | cons b q => exact .rel (first b (sub.subset List.mem_cons_self))

end

/-! ## Maps -/

section

variable {κ β γ : Type}

def mapValues (f : β → γ) (m : AList fun _ : κ => β) : AList fun _ : κ => γ :=
  ⟨m.entries.map (.map id fun _ => f), m.nodupKeys.map₂ _ _⟩

theorem lookup_mapValues [DecidableEq κ] (f : β → γ) (m : AList fun _ : κ => β) (k : κ) :
    (mapValues f m).lookup k = (m.lookup k).map f :=
  List.dlookup_map₂ k

end

end DevFuzz.Lib
