-- Two constituents of one vector. Their accesses lie apart, and what stands
-- for an access of the one has no access of the other in it. So taking the one
-- out leaves the other where it was: its accesses, what its name means at each
-- of them, and the declarations of its name around the vector.
import ShaderMorph.Proofs.Extraction.Identities
import ShaderMorph.Proofs.Nodes.Substitution

namespace ShaderMorph

/-! ## What stands for an access -/

namespace Sighting

section

variable {namePrefix : String} {events : List Event} (s : Sighting namePrefix events)
  (scalarSwizzles : Bool) (c : Constituent)

/-- What stands for an expression once the constituent is taken out, when that
is an access of it. It is told by the expression and its scope. -/
def standIn (scope : ScopeTree) : Expr → Option Expr
  | .member (.ident name) field =>
    if name = s.declared.symbol.name ∧ scope.lookup name = some s.declared.symbol then
      ((Swizzle.parse? field s.packing.width).filter (·.isWithin c.offset c.width)).bind
        (c.replacement? scalarSwizzles (c.type s.packing.elem))
    else none
  | _ => none

variable {s scalarSwizzles c} {c₁ c₂ : Constituent} {scope : ScopeTree}

theorem standIn_eq_some {e new : Expr} :
    s.standIn scalarSwizzles c scope e = some new ↔ ∃ field swizzle,
      e = .member (.ident s.declared.symbol.name) field ∧
        scope.lookup s.declared.symbol.name = some s.declared.symbol ∧
        Swizzle.parse? field s.packing.width = some swizzle ∧
        swizzle.isWithin c.offset c.width = true ∧
        c.replacement? scalarSwizzles (c.type s.packing.elem) swizzle = some new := by
  constructor
  · intro h
    unfold standIn at h
    split at h
    · next name field =>
      split at h
      · next hvector =>
        obtain ⟨rfl, hmeans⟩ := hvector
        obtain ⟨swizzle, hswizzle, hnew⟩ := Option.bind_eq_some_iff.1 h
        obtain ⟨hparse, hin⟩ := Option.filter_eq_some_iff.1 hswizzle
        exact ⟨field, swizzle, rfl, hmeans, hparse, hin, hnew⟩
      · cases h
    · cases h
  · rintro ⟨field, swizzle, rfl, hmeans, hparse, hin, hnew⟩
    have hfilter : (some swizzle).filter (·.isWithin c.offset c.width) = some swizzle :=
      Option.filter_eq_some_iff.2 ⟨rfl, hin⟩
    simp [standIn, hmeans, hparse, hfilter, hnew]

theorem standIn_names {e new : Expr} (h : s.standIn scalarSwizzles c scope e = some new) :
    new.Names c.name := by
  obtain ⟨_, _, -, -, -, -, hnew⟩ := standIn_eq_some.1 h
  exact Constituent.replacement?_names hnew

/-- It has no access of the vector in it. -/
theorem substitute_of_names {name : String} (hne : name ≠ s.declared.symbol.name) {e : Expr}
    (h : e.Names name) : e.substitute (s.standIn scalarSwizzles c scope) = e := by
  cases h with
  | ident => rfl
  | call callee => rfl
  | member field => simp [Expr.substitute, standIn, hne]

/-- A name at the front of an expression was there before, or stands for an
access. -/
theorem substitute_eq_ident {e : Expr} {name : String}
    (h : e.substitute (s.standIn scalarSwizzles c scope) = .ident name) :
    e = .ident name ∨ name = c.name := by
  cases hnew : s.standIn scalarSwizzles c scope e with
  | some new =>
    rw [Expr.substitute_of_some hnew] at h
    have hnames := standIn_names hnew
    rw [h] at hnames
    cases hnames
    exact Or.inr rfl
  | none =>
    left
    cases e <;> simp_all [Expr.substitute]

/-- The accesses of the one constituent are not seen by the other. -/
theorem standIn_blind (hne : c₁.name ≠ s.declared.symbol.name) :
    Expr.Blind (s.standIn scalarSwizzles c₁ scope) (s.standIn scalarSwizzles c₂ scope) where
  leaves _ _ h := substitute_of_names hne (standIn_names h)
  sees e h := by
    cases e with
    | member base field =>
      have hsubst : (Expr.member base field).substitute (s.standIn scalarSwizzles c₁ scope) =
          .member (base.substitute (s.standIn scalarSwizzles c₁ scope)) field := by
        rw [Expr.substitute, h, Option.getD_none]
      rw [hsubst]
      refine Option.ext fun new => ?_
      simp only [standIn_eq_some, Expr.member.injEq]
      refine exists_congr fun _ => exists_congr fun _ => and_congr_left fun _ => ?_
      refine and_congr_left fun _ => ⟨fun hbase => ?_, fun hbase => ?_⟩
      · exact (substitute_eq_ident hbase).resolve_right hne.symm
      · rw [hbase]
        rfl
    | _ => rw [Expr.substitute, h]; rfl

/-- No expression is an access of both. -/
theorem standIn_apart (h : c₁.meets c₂ = false) (e : Expr) :
    s.standIn scalarSwizzles c₁ scope e = none ∨ s.standIn scalarSwizzles c₂ scope e = none := by
  cases h₁ : s.standIn scalarSwizzles c₁ scope e with
  | none => exact Or.inl rfl
  | some new₁ =>
    right
    rw [Option.eq_none_iff_forall_ne_some]
    intro new₂ h₂
    obtain ⟨field, swizzle, rfl, -, hparse, hin, -⟩ := standIn_eq_some.1 h₁
    obtain ⟨_, _, hexpr, -, hparse', hin', -⟩ := standIn_eq_some.1 h₂
    cases hexpr
    cases hparse.symm.trans hparse'
    exact Bool.false_ne_true (h.symm.trans (Swizzle.meets_of_within hparse hin hin'))

/-- So the accesses of both can be replaced in either order. -/
theorem substitute_standIn_comm (h₁ : c₁ ∈ s.packing.constituents)
    (h₂ : c₂ ∈ s.packing.constituents) (hne : c₁ ≠ c₂) (e : Expr) :
    (e.substitute (s.standIn scalarSwizzles c₁ scope)).substitute
        (s.standIn scalarSwizzles c₂ scope) =
      (e.substitute (s.standIn scalarSwizzles c₂ scope)).substitute
        (s.standIn scalarSwizzles c₁ scope) :=
  Expr.substitute_comm (standIn_blind (s.component_ne h₁)) (standIn_blind (s.component_ne h₂))
    (standIn_apart (s.not_meets h₁ h₂ hne)) e

/-- A vector that is sighted again is accessed in the same way. -/
theorem standIn_congr {events' : List Event} {s' : Sighting namePrefix events'}
    (hname : s'.declared.symbol.name = s.declared.symbol.name) (hpacking : s'.packing = s.packing)
    {scope' : ScopeTree}
    (hmeans : scope'.lookup s.declared.symbol.name = some s'.declared.symbol ↔
      scope.lookup s.declared.symbol.name = some s.declared.symbol) (e : Expr) :
    s'.standIn scalarSwizzles c scope' e = s.standIn scalarSwizzles c scope e := by
  refine Option.ext fun new => ?_
  simp only [standIn_eq_some, hname, hpacking, hmeans]

end

section

variable {namePrefix : String} {p p' : Program} {s : Sighting namePrefix p.walk}
  {s' : Sighting namePrefix p'.walk} {rules rules' : MergeRules} {c c₀ c₂ : Constituent}
  {plan plan' : ExtractionPlan} {R : ScopeTree → ScopeTree → Prop} {move : Symbol → Symbol}

/-- What a plan replaces is told by what is visited. -/
theorem Plans.uniform (h : s.Plans rules c plan) :
    plan.replacement.Uniform (s.standIn rules.scalarSwizzles c) p.visits := by
  intro v hv
  refine Option.ext fun new => ?_
  rw [h.replacement_ordinal_eq_some hv, standIn_eq_some]
  constructor
  · rintro ⟨swizzle, ⟨⟨field, hexpr, hparse⟩, hmeans, hin⟩, hnew⟩
    exact ⟨field, swizzle, hexpr, hmeans, hparse, hin, hnew⟩
  · rintro ⟨field, swizzle, hexpr, hmeans, hparse, hin, hnew⟩
    exact ⟨swizzle, ⟨⟨field, hexpr, hparse⟩, hmeans, hin⟩, hnew⟩

/-! ## A name around the vector -/

/-- A name is to a vector what it was in another program. Symbols turn into
what `move` makes of them, in scopes that `R` tells of. -/
structure Keeps (s : Sighting namePrefix p.walk) (s' : Sighting namePrefix p'.walk)
    (name : String) (R : ScopeTree → ScopeTree → Prop) (move : Symbol → Symbol) : Prop where
  type : ∀ u, (move u).type = u.type
  depth : ∀ u, (move u).depth = u.depth
  id : ∀ u t, (move u).id = (move t).id ↔ u.id = t.id
  vector : s'.declared.symbol.depth = s.declared.symbol.depth
  sibling : s'.declared.location.acceptsSibling = s.declared.location.acceptsSibling
  lookup : ∀ t t', R t t' → t'.lookup name = (t.lookup name).map move
  frame : ∀ c : Constituent, c.name = name → s'.frameSymbols c = (s.frameSymbols c).map move
  reads : s'.declared.groupReads s'.before name = true →
    s.declared.groupReads s.before name = true
  outer : ∀ w', p'.OuterUse s'.declared name w' → ∃ w, p.OuterUse s.declared name w ∧
    w'.scope.binds s'.declared.symbol.id = w.scope.binds s.declared.symbol.id

namespace Keeps

theorem sameFrame_iff (K : s.Keeps s' c.name R move) (u : Symbol) (m : Option Symbol) :
    Resolution.ofLookup s'.declared.symbol.depth (m.map move) = .sameFrame (move u).id ↔
      Resolution.ofLookup s.declared.symbol.depth m = .sameFrame u.id := by
  rw [Resolution.ofLookup_sameFrame, Resolution.ofLookup_sameFrame, K.vector]
  constructor
  · rintro ⟨_, hm, hdepth, hid⟩
    obtain ⟨t, rfl, rfl⟩ := Option.map_eq_some_iff.1 hm
    exact ⟨t, rfl, (K.depth t).symm.trans hdepth, (K.id t u).1 hid⟩
  · rintro ⟨t, rfl, hdepth, hid⟩
    exact ⟨move t, rfl, (K.depth t).trans hdepth, (K.id t u).2 hid⟩

theorem outer_iff (K : s.Keeps s' c.name R move) (m : Option Symbol) :
    (∀ u, m.map move = some u → u.depth < s'.declared.symbol.depth) ↔
      ∀ u, m = some u → u.depth < s.declared.symbol.depth := by
  cases m with
  | none => simp
  | some u => simp [K.vector, K.depth]

variable (K : s.Keeps s' c.name R move) (S : s.Succeeds s' plan.replacement c₀.name R)
  (h : s.Plans rules c₀ plan) (hc₀ : c₀ ∈ s.packing.constituents) (hmeets : c.meets c₀ = false)

include K S h hc₀ hmeets

/-- What holds of the meanings of the name at the accesses, before and
afterwards. -/
theorem forall_picks {P Q : Option Symbol → Prop} (hP : ∀ m, Q (m.map move) ↔ P m) :
    (∀ v' ∈ p'.visits, ∀ swizzle, s'.Picks c v' swizzle → Q (v'.scope.lookup c.name)) ↔
      ∀ v ∈ p.visits, ∀ swizzle, s.Picks c v swizzle → P (v.scope.lookup c.name) := by
  refine S.forall_picks h hc₀ hmeets (P := fun t => P (t.lookup c.name))
    (Q := fun t => Q (t.lookup c.name)) fun v _ v' _ _ _ hR => ?_
  rw [K.lookup _ _ hR]
  exact hP _

/-- A declaration at hand serves just when it did. -/
theorem exists_outcome_of_singleton {u : Symbol} (hu : s.frameSymbols c = [u]) :
    (∃ o, s'.Outcome rules' c o) ↔ ∃ o, s.Outcome rules c o := by
  have hu' : s'.frameSymbols c = [move u] := by rw [K.frame c rfl, hu, List.map_singleton]
  rw [Sighting.exists_outcome_of_singleton hu, Sighting.exists_outcome_of_singleton hu', K.type,
    S.packing]
  exact and_congr_right fun _ => K.forall_picks S h hc₀ hmeets
    (P := fun m => Resolution.ofLookup s.declared.symbol.depth m = .sameFrame u.id)
    (Q := fun m => Resolution.ofLookup s'.declared.symbol.depth m = .sameFrame (move u).id)
    (K.sameFrame_iff u)

/-- A new declaration can come in just when it could. -/
theorem exists_outcome_of_nil (hfree : s.Free rules c₂) (hname : c.name = c₂.name) :
    (∃ o, s'.Outcome rules' c o) ↔ ∃ o, s.Outcome rules c o := by
  have hnil : s.frameSymbols c = [] := (s.frameSymbols_congr hname).trans hfree.frame
  have hnil' : s'.frameSymbols c = [] := by rw [K.frame c rfl, hnil, List.map_nil]
  have haccesses := K.forall_picks S h hc₀ hmeets
    (P := fun m => ∀ u, m = some u → u.depth < s.declared.symbol.depth)
    (Q := fun m => ∀ u, m = some u → u.depth < s'.declared.symbol.depth) K.outer_iff
  rw [Sighting.exists_outcome_of_nil hnil, Sighting.exists_outcome_of_nil hnil', K.sibling]
  refine and_congr_left fun _ => ⟨fun hfree' => ?_, fun hfree => ?_⟩
  · exact hfree.of_name hname (haccesses.1 ((s'.accesses_outer rules').1 hfree'.accesses))
  · refine ⟨hnil', Bool.eq_false_iff.2 fun hreads => ?_, s'.captures_iff.2 fun w' hw' => ?_,
      (s'.accesses_outer rules').2 (haccesses.2 ((s.accesses_outer rules).1 hfree.accesses))⟩
    · exact Bool.false_ne_true (hfree.reads.symm.trans (K.reads hreads))
    · obtain ⟨w, hw, hbinds⟩ := K.outer w' hw'
      exact hbinds.trans (s.captures_iff.1 hfree.captures w hw)

/-- With a plan for some constituent of the name, there are plans for just the
same ones afterwards. -/
theorem plan?_isSome_iff {plan₂ : ExtractionPlan} (h₂ : s.Plans rules c₂ plan₂)
    (hname : c.name = c₂.name)
    (htyped : ∀ e ∈ s.after, (s.watch c).mistypes rules e = false)
    (htyped' : ∀ e ∈ s'.after, (s'.watch c).mistypes rules' e = false) :
    (s'.plan? rules' c).isSome ↔ (s.plan? rules c).isSome := by
  -- Reads and outer uses of the name are only known to become no more. That
  -- there were none of them, where it matters, is what `h₂` tells.
  have hout : (∃ o, s'.Outcome rules' c o) ↔ ∃ o, s.Outcome rules c o := by
    have hout₂ := h₂.outcome
    generalize plan₂.insertBefore = o at hout₂
    cases hout₂ with
    | reuse u hu _ _ =>
      exact K.exists_outcome_of_singleton S h hc₀ hmeets ((s.frameSymbols_congr hname).trans hu)
    | insert hfree _ => exact K.exists_outcome_of_nil S h hc₀ hmeets hfree hname
  have hiff := S.plan?_isSome_iff h hc₀ hmeets htyped htyped' (q := True) (by rw [hout, true_and])
  rwa [true_and] at hiff

omit S h hc₀ hmeets in
/-- A plan brings in a declaration just when it did. -/
theorem insertBefore_eq {plan₂ plan₂' : ExtractionPlan} (h₂ : s.Plans rules c plan₂)
    (h₂' : s'.Plans rules' c plan₂') :
    plan₂'.insertBefore = plan₂.insertBefore.map fun _ => s'.declared.location := by
  have hframe := K.frame c rfl
  have hout := h₂.outcome
  have hout' := h₂'.outcome
  generalize plan₂.insertBefore = o at hout
  generalize plan₂'.insertBefore = o' at hout'
  cases hout with
  | reuse u hu _ _ =>
    cases hout' with
    | reuse _ _ _ _ => rfl
    | insert hfree _ =>
      rw [hfree.frame, hu] at hframe
      cases hframe
  | insert hfree _ =>
    cases hout' with
    | reuse u hu _ _ =>
      rw [hfree.frame, hu] at hframe
      cases hframe
    | insert _ _ => rfl

end Keeps

end

end Sighting

end ShaderMorph
