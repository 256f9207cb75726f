-- Where a plan comes from. Each plan is one for a constituent of a vector
-- that is sighted on the walk, and what made the analysis report it is told
-- by the walk alone: nothing uses the vector in another way, the accesses of
-- the constituent are all there, and its name is free or is taken, in the
-- frame of the vector, by the one variable that every access sees.
import ShaderMorph.Proofs.Extraction.Vectors

namespace ShaderMorph

/-- What it takes to take a constituent out, and what its declaration then
goes before. -/
theorem MergedVector.verdict?_eq_some {v : MergedVector} {c : ConstituentFacts}
    {o : Option DeclLocation} :
    v.verdict? c = some o ↔
      v.opaqueUse = false ∧ c.typeMismatch = false ∧ c.accesses ≠ [] ∧
        ((∃ id, c.sameFrame = .compatible id ∧ (∀ a ∈ c.accesses, a.2 = .sameFrame id) ∧
            o = none) ∨
          (c.sameFrame = .absent ∧ c.capturesOuter = false ∧
            (∀ a ∈ c.accesses, a.2 = .undeclared ∨ a.2 = .outer) ∧
              v.location.acceptsSibling = true ∧ o = some v.location)) := by
  unfold verdict?
  by_cases hready : (v.opaqueUse || c.typeMismatch || c.accesses.isEmpty) = true
  · rw [if_pos hready]
    constructor
    · intro h
      cases h
    · rintro ⟨ho, ht, ha, -⟩
      simp [ho, ht, ha] at hready
  · rw [if_neg hready]
    simp only [Bool.or_eq_true, List.isEmpty_iff, not_or, Bool.not_eq_true] at hready
    obtain ⟨⟨ho, ht⟩, ha⟩ := hready
    cases c.sameFrame with
    | absent => simp [ho, ht, ha, and_assoc, eq_comm (a := o)]
    | compatible id => simp [ho, ht, ha, eq_comm (a := o)]
    | incompatible => simp

namespace Sighting

variable {namePrefix : String} {events : List Event} (s : Sighting namePrefix events)
  (rules : MergeRules) (c : Constituent)

/-! ## One constituent of one vector -/

/-- The accesses of a constituent, and what its name means at each. -/
def accesses : List (Access × Resolution) := s.after.filterMap ((s.watch c).access? rules)

/-- What is reported for a constituent of a vector. -/
def extraction : Extraction :=
  ⟨s.declared.symbol.name, c.name, c.type s.packing.elem, s.occurrence⟩

/-- The plan for a constituent of a vector. -/
def plan? : Option ExtractionPlan := (s.vector rules).plan? (s.facts rules c)

/-- The name of a constituent is free for a new declaration before the group
of the vector: its frame does not have the name, no initializer up to that of
the vector reads an outer variable of it, nothing behind the vector does, and
every access sees an outer variable of the name or none. -/
structure Free : Prop where
  frame : s.frameSymbols c = []
  reads : s.declared.groupReads s.before c.name = false
  captures : ∀ e ∈ s.after, (s.watch c).captures e = false
  accesses : ∀ a ∈ s.accesses rules c, a.2 = .undeclared ∨ a.2 = .outer

/-- The two ways to take a constituent out: a declaration at hand serves, the
only one of the name in the frame of the vector, or a new one goes in. -/
inductive Outcome : Option DeclLocation → Prop
  | reuse (u : Symbol) : s.frameSymbols c = [u] → u.type = c.type s.packing.elem →
    (∀ a ∈ s.accesses rules c, a.2 = .sameFrame u.id) → Outcome none
  | insert : s.Free rules c → s.declared.location.acceptsSibling = true →
    Outcome (some s.declared.location)

/-- What a plan for a constituent says, and why there is one. -/
structure Plans (plan : ExtractionPlan) : Prop where
  extraction : plan.extraction = s.extraction c
  accesses : plan.accesses = (s.accesses rules c).map (·.1)
  followed : ∀ e ∈ s.after, MergedVector.opaqueBy s.declared.symbol.id s.packing.width e = false
  typed : ∀ e ∈ s.after, (s.watch c).mistypes rules e = false
  accessed : s.accesses rules c ≠ []
  outcome : s.Outcome rules c plan.insertBefore

/-- A plan is made just when its outcome is possible. -/
theorem plan?_eq_some {plan : ExtractionPlan} :
    s.plan? rules c = some plan ↔ s.Plans rules c plan := by
  have hplan : s.plan? rules c = some plan ↔
      (s.vector rules).verdict? (s.facts rules c) = some plan.insertBefore ∧
        plan.extraction = s.extraction c ∧ plan.accesses = (s.accesses rules c).map (·.1) := by
    obtain ⟨x, as, o⟩ := plan
    unfold plan? MergedVector.plan?
    rw [Option.map_eq_some_iff]
    constructor
    · rintro ⟨o', ho, h⟩
      cases h
      exact ⟨ho, rfl, rfl⟩
    · rintro ⟨ho, rfl, rfl⟩
      exact ⟨o, ho, rfl⟩
  have hopaque : (s.vector rules).opaqueUse = false ↔ ∀ e ∈ s.after,
      MergedVector.opaqueBy s.declared.symbol.id s.packing.width e = false := by
    simp [vector]
  have htyped : (s.facts rules c).typeMismatch = false ↔
      ∀ e ∈ s.after, (s.watch c).mistypes rules e = false := by
    simp [facts]
  have hcaptures : (s.facts rules c).capturesOuter = false ↔
      s.declared.groupReads s.before c.name = false ∧
        ∀ e ∈ s.after, (s.watch c).captures e = false := by
    simp [facts]
  have hframe : (s.facts rules c).sameFrame =
      .ofSymbols (s.frameSymbols c) (c.type s.packing.elem) := rfl
  have haccesses : (s.facts rules c).accesses = s.accesses rules c := rfl
  have hlocation : (s.vector rules).location = s.declared.location := rfl
  rw [hplan, MergedVector.verdict?_eq_some, hopaque, htyped, hcaptures, hframe, haccesses,
    hlocation, SameFrame.ofSymbols_eq_absent]
  constructor
  · rintro ⟨⟨ho, ht, ha, hout⟩, hx, has⟩
    refine ⟨hx, has, ho, ht, ha, ?_⟩
    rcases hout with ⟨id, hc, hm, hi⟩ | ⟨hn, ⟨hg, hcap⟩, hm, hl, hi⟩
    · obtain ⟨u, hu, htype, rfl⟩ := SameFrame.ofSymbols_eq_compatible.1 hc
      exact hi ▸ .reuse u hu htype hm
    · exact hi ▸ .insert ⟨hn, hg, hcap, hm⟩ hl
  · rintro ⟨hx, has, ho, ht, ha, hout⟩
    refine ⟨⟨ho, ht, ha, ?_⟩, hx, has⟩
    generalize plan.insertBefore = o at hout
    cases hout with
    | reuse u hu htype hm =>
      exact Or.inl ⟨u.id, SameFrame.ofSymbols_eq_compatible.2 ⟨u, hu, htype, rfl⟩, hm, rfl⟩
    | insert hfree hl =>
      exact Or.inr ⟨hfree.frame, ⟨hfree.reads, hfree.captures⟩, hfree.accesses, hl, rfl⟩

end Sighting

/-! ## All plans -/

/-- Every plan is one for a constituent of a vector that is sighted. -/
theorem MergeFacts.mem_plans {rules : MergeRules} {events : List Event} {plan : ExtractionPlan} :
    plan ∈ (ofEvents rules events).plans ↔
      ∃ s : Sighting rules.namePrefix events, ∃ c ∈ s.packing.constituents,
        s.Plans rules c plan := by
  simp only [plans, List.mem_flatMap, mem_vectors]
  constructor
  · rintro ⟨-, ⟨s, rfl⟩, h⟩
    obtain ⟨f, hf, hp⟩ := List.mem_filterMap.1 h
    obtain ⟨c, hc, rfl⟩ := List.mem_map.1 hf
    exact ⟨s, c, hc, (s.plan?_eq_some rules c).1 hp⟩
  · rintro ⟨s, c, hc, hp⟩
    refine ⟨_, ⟨s, rfl⟩, List.mem_filterMap.2 ⟨_, List.mem_map_of_mem hc, ?_⟩⟩
    exact (s.plan?_eq_some rules c).2 hp

end ShaderMorph
