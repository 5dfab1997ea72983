import DevFuzz.Analysis.Distance
import DevFuzz.Lib.Paths

/-! # Secondary DMA buffers

A DMA buffer may hold structures with addresses of further DMA buffers.  `findDMAPageAddrOffset` of
`stage2/src/apstage2.cpp` follows an address to the stores of it, and records the member of the structure that it is
stored to.

The walk asks for the offset of a `getelementptr` once for every path to a store, and asking may change the
instruction.  Only the first answer can be lost by that (`getStructMemberOffset_again`), and it has been recorded then.

A member is found by the distance that the `getelementptr` goes.  So nothing is recorded for a store to a structure of an
array that is selected by a constant other than zero (`Names.first`).
-/

namespace DevFuzz.Analysis.SecondaryDMA

open DevFuzz.Lib DevFuzz.Stage2 Relation Subclass MemberOffset MemberOffset.GetElementPtr

/-! ## The search -/

/-- A user of a value.  Of a store, the pointer operand if that is a GEP. -/
inductive User (ν γ : Type) where
  | store (gep : Option γ)
  | phi (v : ν)
  | cast (v : ν)
  | other
  deriving DecidableEq

/-- What the search reads of a module, and does not change.  Values are `ν`, GEPs `γ`, functions `φ` and
    structures `τ`. -/
structure Module (ν γ φ τ κ : Type) extends Target ν φ τ κ where
  users : ν → List (User ν γ)
  getSourceElementType : γ → LType τ κ
  dmaBufferTypes : List τ

def Module.getGEPOffset {ν γ φ τ κ : Type} (m : Module ν γ φ τ κ) (g : γ) : GetElementPtr ν → Int :=
  m.toTarget.getGEPOffset (m.getSourceElementType g)

/-- The operands of the GEPs, and `secondDMABufferOffSz`. -/
structure State (ν γ τ : Type) where
  geps : γ → GetElementPtr ν
  secondDMABufferOffSz : τ → Int → Option Int

section

variable {ν γ φ τ κ : Type} [DecidableEq τ]

/-- `secondDMABufferOffSz[struct_type][offset] = sz` -/
def State.assign (s : State ν γ τ) (structType : τ) (offset sz : Int) : State ν γ τ :=
  let row := Function.update (s.secondDMABufferOffSz structType) offset (some sz)
  { s with secondDMABufferOffSz := Function.update s.secondDMABufferOffSz structType row }

theorem State.assign_apply (s : State ν γ τ) (structType other : τ) (offset offset' sz : Int) :
    (s.assign structType offset sz).secondDMABufferOffSz other offset' =
      if other = structType ∧ offset' = offset then some sz else s.secondDMABufferOffSz other offset' := by
  by_cases type : other = structType
  · subst type
    by_cases same : offset' = offset
    · simp [State.assign, same]
    · simp [State.assign, same]
  · simp [State.assign, type]

variable [DecidableEq ν] [DecidableEq γ] (m : Module ν γ φ τ κ)

/-- A store through a GEP. -/
def atStore (sz : Int) (g : γ) (s : State ν γ τ) : State ν γ τ :=
  match m.getSourceElementType g with
  | .struct structType =>
    if structType ∈ m.dmaBufferTypes then
      let asked := getStructMemberOffset (m.getGEPOffset g) (s.geps g)
      let s := { s with geps := Function.update s.geps g asked.2 }
      if asked.1 ≠ -1 then
        match getTypeByOffset m.dl (.struct structType) (UInt64.ofInt asked.1) with
        | some _ => s.assign structType asked.1 sz
        | none => s
      else s
    else s
  | _ => s

/-- The loop over the users. -/
def explorer (sz : Int) : Explorer ν (User ν γ) (State ν γ τ) where
  uses := m.users
  next
    | .phi v => some v
    | .cast v => some v
    | _ => none
  effect
    | .store (some g) => atStore m sz g
    | _ => id

def findDMAPageAddrOffset (fuel : Nat) (pageAddr : ν) (sz : Int) : State ν γ τ → Option (State ν γ τ) :=
  (explorer m sz).explore fuel ∅ pageAddr

/-- The loops of `APStage2Pass` over both kinds of addresses. -/
def secondaryDMASearch (fuel : Nat) (callDmaAllocPage : List ν) (dmaPhyAddrToDMASz : List (ν × Int))
    (s : State ν γ τ) : Option (State ν γ τ) := do
  let s ← callDmaAllocPage.foldlM (fun s ci => findDMAPageAddrOffset m fuel ci 4096 s) s
  dmaPhyAddrToDMASz.foldlM (fun s p => findDMAPageAddrOffset m fuel p.1 p.2 s) s

end

/-! ## Asking again -/

section

variable {ν : Type} [DecidableEq ν]

variable {gep : GetElementPtr ν} {getGEPOffset : GetElementPtr ν → Int} {idx0 : MemberOffset.Value ν}

theorem getStructMemberOffset_of_unknown {rest : List (MemberOffset.Value ν)} (indices : gep.indices = idx0 :: rest)
    (unknown : idx0.isConstantInt = false) :
    getStructMemberOffset getGEPOffset gep =
      if rest.all MemberOffset.Value.isConstantInt then
        (getGEPOffset (gep.replaceUsesOfWith idx0 .zero), (gep.replaceUsesOfWith idx0 .zero).replaceUsesOfWith .zero idx0)
      else (-1, gep) := by
  simp [getStructMemberOffset, hasAllConstantIndices, indices, unknown]

/-- After both replacements the first one makes the same of the instruction as before them. -/
theorem replaceUsesOfWith_undone (differs : idx0 ≠ .zero) :
    ((gep.replaceUsesOfWith idx0 .zero).replaceUsesOfWith .zero idx0).replaceUsesOfWith idx0 .zero =
      gep.replaceUsesOfWith idx0 .zero := by
  have operand : ∀ v, replaced idx0 .zero (if v = .zero then idx0 else v) = replaced idx0 .zero v := by
    intro v
    by_cases zero : v = .zero
    · simp [replaced, zero, differs.symm]
    · simp [zero]
  rw [undo_replaceUsesOfWith .zero idx0]
  simp [replaceUsesOfWith, operand]

/-- The second call leaves the instruction alone, and has the offset of the first call unless it has none. -/
theorem getStructMemberOffset_again (getGEPOffset : GetElementPtr ν → Int) (gep : GetElementPtr ν) :
    (getStructMemberOffset getGEPOffset (getStructMemberOffset getGEPOffset gep).2).2 =
        (getStructMemberOffset getGEPOffset gep).2 ∧
      ((getStructMemberOffset getGEPOffset (getStructMemberOffset getGEPOffset gep).2).1 =
          (getStructMemberOffset getGEPOffset gep).1 ∨
        (getStructMemberOffset getGEPOffset (getStructMemberOffset getGEPOffset gep).2).1 = -1) := by
  by_cases rewritten : gep.Rewritten
  · obtain ⟨idx0, rest, indices, unknown, constants⟩ := rewritten
    have differs : idx0 ≠ .zero := by
      rintro rfl
      cases unknown
    have head : ((gep.replaceUsesOfWith idx0 .zero).replaceUsesOfWith .zero idx0).indices =
        idx0 :: rest.map fun v => if v = .zero then idx0 else v := by
      simp [undo_replaceUsesOfWith, indices, differs]
    rw [getStructMemberOffset_of_unknown indices unknown, if_pos constants,
      getStructMemberOffset_of_unknown head unknown, replaceUsesOfWith_undone differs]
    split_ifs
    · exact ⟨rfl, .inl rfl⟩
    · exact ⟨rfl, .inr rfl⟩
  · rw [getStructMemberOffset_of_not_rewritten rewritten]
    exact ⟨getStructMemberOffset_of_not_rewritten rewritten, .inl rfl⟩

end

/-! ## What is recorded -/

section

variable {ν γ φ τ κ : Type} (m : Module ν γ φ τ κ)

/-- The address flows from one value to another through PHI nodes and casts. -/
def Flows (v w : ν) : Prop := .phi w ∈ m.users v ∨ .cast w ∈ m.users v

/-- The address is stored through the GEP. -/
def Stored (pageAddr : ν) (g : γ) : Prop := ∃ v, ReflTransGen (Flows m) pageAddr v ∧ .store (some g) ∈ m.users v

variable [DecidableEq ν]

/-- A member is found for a GEP, as it was before the search. -/
structure Answered (geps : γ → GetElementPtr ν) (g : γ) (structType : τ) (offset : Int) : Prop where
  source : m.getSourceElementType g = .struct structType
  known : structType ∈ m.dmaBufferTypes
  answer : (getStructMemberOffset (m.getGEPOffset g) (geps g)).1 = offset
  found : offset ≠ -1
  member : (getTypeByOffset m.dl (.struct structType) (UInt64.ofInt offset)).isSome

variable {m}

/-! ### Stores in any order -/

/-- What the table holds after some stores.  A GEP that was asked may have changed, but then its member is in the
    table. -/
structure Held (geps : γ → GetElementPtr ν) (stores : List (γ × Int)) (s : State ν γ τ) : Prop where
  gep : ∀ g, s.geps g = geps g ∨
    s.geps g = (getStructMemberOffset (m.getGEPOffset g) (geps g)).2 ∧ ∃ sz, (g, sz) ∈ stores
  sound : ∀ structType offset sz, s.secondDMABufferOffSz structType offset = some sz →
    ∃ g, (g, sz) ∈ stores ∧ Answered m geps g structType offset
  complete : ∀ p ∈ stores, ∀ structType offset, Answered m geps p.1 structType offset →
    ∃ sz, s.secondDMABufferOffSz structType offset = some sz

/-- A GEP is changed the same way by each question, and its answer is lost only if there was one before. -/
theorem Held.asks {geps : γ → GetElementPtr ν} {stores : List (γ × Int)} {s : State ν γ τ}
    (held : Held (m := m) geps stores s) (g : γ) :
    (getStructMemberOffset (m.getGEPOffset g) (s.geps g)).2 = (getStructMemberOffset (m.getGEPOffset g) (geps g)).2 ∧
      ((getStructMemberOffset (m.getGEPOffset g) (s.geps g)).1 = (getStructMemberOffset (m.getGEPOffset g) (geps g)).1 ∨
        (getStructMemberOffset (m.getGEPOffset g) (s.geps g)).1 = -1 ∧ ∃ sz, (g, sz) ∈ stores) := by
  rcases held.gep g with same | ⟨changed, before⟩
  · rw [same]
    exact ⟨rfl, .inl rfl⟩
  · rw [changed]
    obtain ⟨gep, answer | lost⟩ := getStructMemberOffset_again (m.getGEPOffset g) (geps g)
    · exact ⟨gep, .inl answer⟩
    · exact ⟨gep, .inr ⟨lost, before⟩⟩

theorem Held.more {geps : γ → GetElementPtr ν} {stores later : List (γ × Int)} {s : State ν γ τ}
    (held : Held (m := m) geps stores s)
    (unnamed : ∀ p ∈ later, ∀ structType offset, Answered m geps p.1 structType offset →
      ∃ sz, s.secondDMABufferOffSz structType offset = some sz) :
    Held (m := m) geps (stores ++ later) s := by
  constructor
  · intro g
    exact (held.gep g).imp_right fun ⟨changed, sz, member⟩ => ⟨changed, sz, List.mem_append_left _ member⟩
  · intro structType offset sz value
    obtain ⟨g, member, names⟩ := held.sound structType offset sz value
    exact ⟨g, List.mem_append_left _ member, names⟩
  · intro p member
    rcases List.mem_append.mp member with member | member
    · exact held.complete p member
    · exact unnamed p member

variable [DecidableEq γ]

theorem Held.setGep {geps : γ → GetElementPtr ν} {stores : List (γ × Int)} {s : State ν γ τ} {g : γ}
    (held : Held (m := m) geps stores s) (asked : ∃ sz, (g, sz) ∈ stores) :
    Held (m := m) geps stores { s with
      geps := Function.update s.geps g (getStructMemberOffset (m.getGEPOffset g) (geps g)).2 } := by
  refine ⟨fun g' => ?_, held.sound, held.complete⟩
  by_cases here : g' = g
  · subst here
    exact .inr ⟨by simp, asked⟩
  · simpa [here] using held.gep g'

variable [DecidableEq τ]

omit [DecidableEq γ] in
theorem Held.assign {geps : γ → GetElementPtr ν} {stores : List (γ × Int)} {s : State ν γ τ} {g : γ} {sz : Int}
    {structType : τ} {offset : Int} (held : Held (m := m) geps stores s) (names : Answered m geps g structType offset) :
    Held (m := m) geps (stores ++ [(g, sz)]) (s.assign structType offset sz) := by
  constructor
  · intro g'
    exact (held.gep g').imp_right fun ⟨changed, sz, member⟩ => ⟨changed, sz, List.mem_append_left _ member⟩
  · intro other offset' sz' value
    rw [State.assign_apply] at value
    split_ifs at value with here
    · obtain ⟨rfl, rfl⟩ := here
      obtain rfl := Option.some.inj value
      exact ⟨g, by simp, names⟩
    · obtain ⟨g', member, names'⟩ := held.sound other offset' sz' value
      exact ⟨g', List.mem_append_left _ member, names'⟩
  · intro p member other offset' names'
    rw [State.assign_apply]
    by_cases here : other = structType ∧ offset' = offset
    · exact ⟨sz, if_pos here⟩
    · rw [if_neg here]
      rcases List.mem_append.mp member with member | member
      · exact held.complete p member other offset' names'
      · obtain rfl := List.mem_singleton.mp member
        refine absurd ⟨?_, ?_⟩ here
        · exact LType.struct.inj (names'.source.symm.trans names.source)
        · exact names'.answer.symm.trans names.answer

omit [DecidableEq ν] [DecidableEq γ] [DecidableEq τ] in
def User.target : User ν γ → Option γ
  | .store gep => gep
  | _ => none

theorem run_explorer (sz : Int) (done : List (User ν γ)) (s : State ν γ τ) :
    (explorer m sz).run done s = (done.filterMap User.target).foldl (fun s g => atStore m sz g s) s := by
  induction done generalizing s with
  | nil => rfl
  | cons user done ih =>
    cases user with
    | store gep =>
      cases gep with
      | none => exact ih s
      | some g => exact ih (atStore m sz g s)
    | phi v => exact ih s
    | cast v => exact ih s
    | other => exact ih s

theorem leads_explorer (sz : Int) : (explorer m sz).Leads = Flows m := by
  funext v w
  refine propext ⟨?_, ?_⟩
  · rintro ⟨user, member, next⟩
    cases user with
    | store gep => cases next
    | phi x => exact .inl (Option.some.inj next ▸ member)
    | cast x => exact .inr (Option.some.inj next ▸ member)
    | other => cases next
  · rintro (member | member)
    · exact ⟨_, member, rfl⟩
    · exact ⟨_, member, rfl⟩

/-- A walk returns, and is a list of stores. -/
theorem findDMAPageAddrOffset_spec [Fintype ν] (pageAddr : ν) (sz : Int) :
    ∃ stores : List γ, (∀ s, findDMAPageAddrOffset m (Fintype.card ν + 1) pageAddr sz s =
        some (stores.foldl (fun s g => atStore m sz g s) s)) ∧
      ∀ g, g ∈ stores ↔ Stored m pageAddr g := by
  have enough : (Finset.univ \ (∅ : Finset ν)).card < Fintype.card ν + 1 := by simp [Finset.card_univ]
  obtain ⟨done, runs, members⟩ := (explorer m sz).explore_spec enough pageAddr
  refine ⟨done.filterMap User.target, fun s => (runs s).trans (congrArg some (run_explorer sz done s)), fun g => ?_⟩
  simp only [List.mem_filterMap, members, avoiding_empty_iff, leads_explorer]
  constructor
  · rintro ⟨user, ⟨-, v, flows, member⟩, target⟩
    cases user with
    | store gep => exact ⟨v, flows, (target : gep = some g) ▸ member⟩
    | phi x => cases target
    | cast x => cases target
    | other => cases target
  · rintro ⟨v, flows, member⟩
    exact ⟨.store (some g), ⟨rfl, v, flows, member⟩, rfl⟩

omit [DecidableEq ν] [DecidableEq γ] [DecidableEq τ] in
/-- The addresses that are followed, with the lengths of their buffers. -/
def addresses (callDmaAllocPage : List ν) (dmaPhyAddrToDMASz : List (ν × Int)) : List (ν × Int) :=
  callDmaAllocPage.map (fun ci => (ci, 4096)) ++ dmaPhyAddrToDMASz

theorem secondaryDMASearch_spec [Fintype ν] (callDmaAllocPage : List ν) (dmaPhyAddrToDMASz : List (ν × Int)) :
    ∃ stores : List (γ × Int), (∀ s, secondaryDMASearch m (Fintype.card ν + 1) callDmaAllocPage dmaPhyAddrToDMASz s =
        some (stores.foldl (fun s p => atStore m p.2 p.1 s) s)) ∧
      ∀ p, p ∈ stores ↔ ∃ a ∈ addresses callDmaAllocPage dmaPhyAddrToDMASz, Stored m a.1 p.1 ∧ a.2 = p.2 := by
  have each : ∀ a ∈ addresses callDmaAllocPage dmaPhyAddrToDMASz, ∃ stores : List (γ × Int),
      (∀ s, findDMAPageAddrOffset m (Fintype.card ν + 1) a.1 a.2 s =
        some (stores.foldl (fun s p => atStore m p.2 p.1 s) s)) ∧
      ∀ p, p ∈ stores ↔ Stored m a.1 p.1 ∧ a.2 = p.2 := by
    rintro ⟨pageAddr, sz⟩ -
    obtain ⟨stores, runs, members⟩ := findDMAPageAddrOffset_spec (m := m) pageAddr sz
    refine ⟨stores.map fun g => (g, sz), fun s => ?_, fun p => ?_⟩
    · rw [List.foldl_map]
      exact runs s
    · rw [← members]
      simp only [List.mem_map, Prod.ext_iff]
      exact ⟨fun ⟨g, member, same, len⟩ => ⟨same ▸ member, len⟩, fun ⟨member, len⟩ => ⟨_, member, rfl, len⟩⟩
  obtain ⟨stores, runs, members⟩ := foldlM_effects each
  refine ⟨stores, fun s => ?_, members⟩
  rw [← runs s, addresses, List.foldlM_append, List.foldlM_map]
  rfl

/-- What a store does.  `asked` is the answer for the GEP, and what it has become. -/
inductive AtStore (s : State ν γ τ) (g : γ) (sz : Int) (asked : Int × GetElementPtr ν) : State ν γ τ → Prop where
  | elsewhere (unnamed : ∀ geps structType offset, ¬ Answered m geps g structType offset) : AtStore s g sz asked s
  | lost (unnamed : ∀ geps structType, ¬ (Answered m geps g structType asked.1)) :
    AtStore s g sz asked { s with geps := Function.update s.geps g asked.2 }
  | recorded {structType : τ} (found : asked.1 ≠ -1)
    (named : ∀ geps, (getStructMemberOffset (m.getGEPOffset g) (geps g)).1 = asked.1 → Answered m geps g structType asked.1) :
    AtStore s g sz asked (State.assign { s with geps := Function.update s.geps g asked.2 } structType asked.1 sz)

theorem atStore_cases (sz : Int) (g : γ) (s : State ν γ τ) :
    AtStore (m := m) s g sz (getStructMemberOffset (m.getGEPOffset g) (s.geps g)) (atStore m sz g s) := by
  unfold atStore
  split
  · rename_i structType source
    by_cases known : structType ∈ m.dmaBufferTypes
    · simp only [if_pos known]
      by_cases found : (getStructMemberOffset (m.getGEPOffset g) (s.geps g)).1 = -1
      · rw [if_neg (not_not_intro found)]
        exact .lost fun geps other names => names.found found
      · rw [if_pos found]
        split
        · rename_i type member
          exact .recorded found fun geps answer => ⟨source, known, answer, found, by simp [member]⟩
        · rename_i absent
          refine .lost fun geps other names => ?_
          obtain rfl : other = structType := LType.struct.inj (names.source.symm.trans source)
          simpa [absent] using names.member
    · rw [if_neg known]
      refine .elsewhere fun geps other offset names => known ?_
      exact LType.struct.inj (source.symm.trans names.source) ▸ names.known
  · rename_i other
    exact .elsewhere fun geps structType offset names => other structType names.source

theorem Held.atStore {geps : γ → GetElementPtr ν} {stores : List (γ × Int)} {s : State ν γ τ}
    (held : Held (m := m) geps stores s) (g : γ) (sz : Int) :
    Held (m := m) geps (stores ++ [(g, sz)]) (SecondaryDMA.atStore m sz g s) := by
  obtain ⟨gep, answer⟩ := held.asks g
  have cases := atStore_cases (m := m) sz g s
  generalize getStructMemberOffset (m.getGEPOffset g) (s.geps g) = asked at gep answer cases
  generalize SecondaryDMA.atStore m sz g s = t at cases
  cases cases with
  | elsewhere unnamed =>
    refine held.more fun p member structType offset names => ?_
    obtain rfl := List.mem_singleton.mp member
    exact absurd names (unnamed _ _ _)
  | lost unnamed =>
    rw [gep]
    refine (held.more fun p member structType offset names => ?_).setGep ⟨sz, by simp⟩
    obtain rfl := List.mem_singleton.mp member
    rcases answer with answer | ⟨-, before, member⟩
    · obtain rfl : asked.1 = offset := answer.trans names.answer
      exact absurd names (unnamed _ _)
    · exact held.complete _ member structType offset names
  | recorded found named =>
    rw [gep]
    rcases answer with answer | ⟨lost, -⟩
    · exact (held.assign (named geps answer.symm)).setGep ⟨sz, by simp⟩
    · exact absurd lost found

theorem Held.foldl_atStore {geps : γ → GetElementPtr ν} (stores : List (γ × Int)) {before : List (γ × Int)}
    {s : State ν γ τ} (held : Held (m := m) geps before s) :
    Held (m := m) geps (before ++ stores) (stores.foldl (fun s p => SecondaryDMA.atStore m p.2 p.1 s) s) := by
  induction stores generalizing before s with
  | nil => rwa [List.append_nil]
  | cons p stores ih => simpa using ih (held.atStore p.1 p.2)

/-! ### Members -/

/-- The member of a structure in a DMA buffer that a GEP leads to, as it was before the search.  The distance is taken
    for an `int`. -/
structure Names (m : Module ν γ φ τ κ) (geps : γ → GetElementPtr ν) (g : γ) (structType : τ) (offset : Int) :
    Prop where
  source : m.getSourceElementType g = .struct structType
  known : structType ∈ m.dmaBufferTypes
  reaches : ∃ d, m.distance (.struct structType) (geps g) = some d ∧ d.bmod 4294967296 = offset
  starts : ∃ element ∈ (m.dl.getStructLayout structType).elements, (element.1.toNat : Int) = offset
  inside : offset < (m.dl.size structType).toNat

section

omit [DecidableEq ν] [DecidableEq γ] [DecidableEq τ]

variable {geps : γ → GetElementPtr ν} {g : γ} {structType : τ} {offset : Int}

theorem Names.nonneg (names : Names m geps g structType offset) : 0 ≤ offset := by
  obtain ⟨element, -, rfl⟩ := names.starts
  exact Int.natCast_nonneg _

theorem toNat_ofInt_of_nonneg (nonneg : 0 ≤ offset) (small : offset < 18446744073709551616) :
    ((UInt64.ofInt offset).toNat : Int) = offset := by
  rw [UInt64.ofInt, UInt64.toNat_ofNat']
  omega

theorem isSome_getTypeByOffset (lower : -2147483648 ≤ offset) (upper : offset < 2147483648) :
    (getTypeByOffset m.dl (.struct structType) (UInt64.ofInt offset)).isSome ↔
      (∃ element ∈ (m.dl.getStructLayout structType).elements, (element.1.toNat : Int) = offset) ∧
        offset < (m.dl.size structType).toNat := by
  have small := (m.dl.getStructLayout structType).size_lt
  rw [← DataLayout.size] at small
  simp only [getTypeByOffset]
  split_ifs with past
  · -- the structures are too small for an offset that is negative
    rw [UInt64.le_iff_toNat_le] at past
    refine iff_of_false (by simp) ?_
    rintro ⟨⟨element, -, rfl⟩, inside⟩
    rw [← toNat_ofInt_of_nonneg (Int.natCast_nonneg _) (by omega)] at inside
    omega
  · have below : (UInt64.ofInt offset).toNat < (m.dl.size structType).toNat := by
      simpa [UInt64.le_iff_toNat_le] using past
    have exact : ((UInt64.ofInt offset).toNat : Int) = offset := by
      rw [UInt64.ofInt, UInt64.toNat_ofNat'] at below ⊢
      omega
    have inside : offset < (m.dl.size structType).toNat := by omega
    rw [Option.isSome_map, List.find?_isSome]
    simp only [decide_eq_true_eq, ← UInt64.toNat_inj, inside, and_true]
    constructor
    · rintro ⟨element, member, same⟩
      exact ⟨element, member, by omega⟩
    · rintro ⟨element, member, same⟩
      exact ⟨element, member, by omega⟩

variable [DecidableEq ν]

/-- The answers are the members by the layout. -/
theorem names_iff : Names m geps g structType offset ↔ Answered m geps g structType offset := by
  constructor
  · intro names
    obtain ⟨d, reaches, rfl⟩ := names.reaches
    have nonneg := names.nonneg
    refine ⟨names.source, names.known, ?_, by omega, ?_⟩
    · rw [Module.getGEPOffset, names.source, Target.getStructMemberOffset_eq, reaches]
      rfl
    · exact (isSome_getTypeByOffset (by omega) (Int.bmod_lt (by decide))).mpr ⟨names.starts, names.inside⟩
  · rintro ⟨source, known, answer, found, member⟩
    rw [Module.getGEPOffset, source, Target.getStructMemberOffset_eq] at answer
    cases reaches : m.distance (.struct structType) (geps g) with
    | none =>
      rw [reaches] at answer
      exact absurd answer.symm found
    | some d =>
      rw [reaches] at answer
      have answer : d.bmod 4294967296 = offset := answer
      have lower : -2147483648 ≤ offset := answer ▸ Int.le_bmod (by decide)
      have upper : offset < 2147483648 := answer ▸ Int.bmod_lt (by decide)
      obtain ⟨starts, inside⟩ := (isSome_getTypeByOffset lower upper).mp member
      exact ⟨source, known, ⟨d, reaches, answer⟩, starts, inside⟩

omit [DecidableEq ν] in
/-- As long as the distance is an `int`, a constant first index is zero. -/
theorem Names.first (names : Names m geps g structType offset) {idx0 : MemberOffset.Value ν}
    {rest : List (MemberOffset.Value ν)} {inner : Int} (indices : (geps g).indices = idx0 :: rest)
    (placed : m.place (.struct structType) rest = some inner) (nonneg : 0 ≤ inner)
    (within : inner < (m.dl.size structType).toNat)
    (lower : -2147483648 ≤ idx0.signed * (m.dl.size structType).toNat + inner)
    (upper : idx0.signed * (m.dl.size structType).toNat + inner < 2147483648) : idx0.signed = 0 := by
  obtain ⟨d, reaches, answer⟩ := names.reaches
  have above := names.nonneg
  have below := names.inside
  have distance : idx0.signed * (m.dl.size structType).toNat + inner = d := by
    simpa [Target.distance, indices, placed, Target.allocSize] using reaches
  have exact : d.bmod 4294967296 = d := Int.bmod_eq_of_le (by omega) (by omega)
  have size : (0 : Int) ≤ (m.dl.size structType).toNat := Int.natCast_nonneg _
  -- another structure of the array begins at least a whole size away
  rcases lt_trichotomy idx0.signed 0 with before | zero | behind
  · have := Int.mul_le_mul_of_nonneg_right (Int.le_sub_one_of_lt before) size
    omega
  · exact zero
  · have := Int.mul_le_mul_of_nonneg_right (Int.add_one_le_of_lt behind) size
    omega

end

/-! ### The whole search -/

/-- The table holds exactly the members that an address is stored to, each with the length of such an address. -/
structure Exact (m : Module ν γ φ τ κ) (geps : γ → GetElementPtr ν) (addresses : List (ν × Int))
    (table : τ → Int → Option Int) : Prop where
  sound : ∀ structType offset sz, table structType offset = some sz →
    ∃ a ∈ addresses, a.2 = sz ∧ ∃ g, Stored m a.1 g ∧ Names m geps g structType offset
  complete : ∀ a ∈ addresses, ∀ g, Stored m a.1 g → ∀ structType offset, Names m geps g structType offset →
    ∃ sz, table structType offset = some sz

/-- The search returns, whatever the module is. -/
theorem exists_secondaryDMASearch [Fintype ν] (geps : γ → GetElementPtr ν) (callDmaAllocPage : List ν)
    (dmaPhyAddrToDMASz : List (ν × Int)) :
    ∃ s, secondaryDMASearch m (Fintype.card ν + 1) callDmaAllocPage dmaPhyAddrToDMASz ⟨geps, fun _ _ => none⟩ = some s ∧
      Exact m geps (addresses callDmaAllocPage dmaPhyAddrToDMASz) s.secondDMABufferOffSz := by
  obtain ⟨stores, runs, members⟩ := secondaryDMASearch_spec (m := m) callDmaAllocPage dmaPhyAddrToDMASz
  have start : Held (m := m) geps [] (⟨geps, fun _ _ => none⟩ : State ν γ τ) := ⟨fun _ => .inl rfl, nofun, nofun⟩
  have held := start.foldl_atStore stores
  refine ⟨_, runs _, ?_, ?_⟩
  · intro structType offset sz value
    obtain ⟨g, member, answered⟩ := held.sound structType offset sz value
    obtain ⟨a, known, stored, len⟩ := (members _).mp member
    exact ⟨a, known, len, g, stored, names_iff.mpr answered⟩
  · intro a known g stored structType offset names
    exact held.complete (g, a.2) ((members _).mpr ⟨a, known, stored, rfl⟩) structType offset (names_iff.mp names)

/-- What the search has found, and nothing else. -/
structure Found (m : Module ν γ φ τ κ) (geps : γ → GetElementPtr ν) (addresses : List (ν × Int))
    (table : τ → Int → Option Int) : Prop where
  members : ∀ structType offset, (∃ sz, table structType offset = some sz) ↔
    ∃ a ∈ addresses, ∃ g, Stored m a.1 g ∧ Names m geps g structType offset
  lengths : ∀ structType offset sz, table structType offset = some sz →
    ∃ a ∈ addresses, a.2 = sz ∧ ∃ g, Stored m a.1 g ∧ Names m geps g structType offset
  inside : ∀ structType offset sz, table structType offset = some sz →
    0 ≤ offset ∧ offset < (m.dl.size structType).toNat
  /-- of an array of structures, only the first one or one at an unknown index is taken -/
  first : ∀ g structType idx0 rest inner, (geps g).indices = idx0 :: rest →
    m.place (.struct structType) rest = some inner → 0 ≤ inner → inner < (m.dl.size structType).toNat →
    -2147483648 ≤ idx0.signed * (m.dl.size structType).toNat + inner →
    idx0.signed * (m.dl.size structType).toNat + inner < 2147483648 →
    idx0.signed ≠ 0 → ∀ offset, ¬ Names m geps g structType offset

/-- The search returns on every module, also where the address flows in a circle, and finds the members that one of
    the addresses is stored to. -/
theorem found_of_search [Fintype ν] (m : Module ν γ φ τ κ) (geps : γ → GetElementPtr ν) (callDmaAllocPage : List ν)
    (dmaPhyAddrToDMASz : List (ν × Int)) :
    ∃ s, secondaryDMASearch m (Fintype.card ν + 1) callDmaAllocPage dmaPhyAddrToDMASz ⟨geps, fun _ _ => none⟩ = some s ∧
      Found m geps (addresses callDmaAllocPage dmaPhyAddrToDMASz) s.secondDMABufferOffSz := by
  obtain ⟨s, returns, sound, complete⟩ := exists_secondaryDMASearch (m := m) geps callDmaAllocPage dmaPhyAddrToDMASz
  refine ⟨s, returns, fun structType offset => ⟨?_, ?_⟩, sound, ?_, ?_⟩
  · rintro ⟨sz, value⟩
    obtain ⟨a, member, -, stored⟩ := sound structType offset sz value
    exact ⟨a, member, stored⟩
  · rintro ⟨a, member, g, stored, names⟩
    exact complete a member g stored structType offset names
  · intro structType offset sz value
    obtain ⟨-, -, -, g, -, names⟩ := sound structType offset sz value
    exact ⟨names.nonneg, names.inside⟩
  · intro g structType idx0 rest inner indices placed nonneg within lower upper later offset names
    exact later (names.first indices placed nonneg within lower upper)

end

end DevFuzz.Analysis.SecondaryDMA
