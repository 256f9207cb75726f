-- The vector that a constituent was taken out of, sighted again on the walk
-- afterwards. What accesses another constituent, or uses the vector in a way
-- that no swizzle can follow, does so before and after alike; the constituent
-- that was taken out is not accessed any more.
import Mathlib.Data.List.Pairwise
import ShaderMorph.Proofs.Extraction.Names

namespace ShaderMorph

/-! ## Single visits when accesses are replaced -/

namespace Rewritten

variable {heads : List Prototype} {r : Replacement} {es es' : List Event}
  {vector component : String}

/-- What is left alone is met again. -/
theorem forth (h : Rewritten heads r es es') (hr : r.Renames vector component es) {v : Visit}
    (hv : .visit v ∈ es) (hl : r.Leaves v) :
    ∃ v', .visit v' ∈ es' ∧ v'.expr = v.expr.rewrite r v.ordinal ∧ v'.scope = v.scope := by
  induction h with
  | nil => cases hv
  | declare d _ ih =>
    rcases List.mem_cons.1 hv with hv | hv
    · cases hv
    · obtain ⟨v', hv', h⟩ := ih hr.of_cons hv
      exact ⟨v', List.mem_cons_of_mem _ hv', h⟩
  | kept w w' _ _ he hs _ _ ih =>
    rcases List.mem_cons.1 hv with hv | hv
    · cases hv
      exact ⟨w', List.mem_cons_self, he, hs⟩
    · obtain ⟨v', hv', h⟩ := ih hr.of_cons hv
      exact ⟨v', List.mem_cons_of_mem _ hv', h⟩
  | replaced e new scope around parent parent' k k' hk _ ih =>
    rcases List.mem_append.1 hv with hv | hv
    · obtain ⟨⟨field, rfl⟩, -⟩ := hr.access hk
      simp only [Expr.visits, List.map_cons, List.map_nil, List.mem_cons, Event.visit.injEq,
        List.not_mem_nil, or_false] at hv
      rcases hv with rfl | rfl
      · exact absurd (hk.symm.trans hl.1) (by simp)
      · exact absurd (hk.symm.trans (hl.2 k rfl)) (by simp)
    · obtain ⟨v', hv', h⟩ := ih hr.of_append hv
      exact ⟨v', List.mem_append_right _ hv', h⟩

/-- What is met afterwards was met before, or stands in for an access. -/
theorem back (h : Rewritten heads r es es') (hr : r.Renames vector component es) {v' : Visit}
    (hv' : .visit v' ∈ es') :
    (∃ v, .visit v ∈ es ∧ r.Leaves v ∧ v'.expr = v.expr.rewrite r v.ordinal ∧
        v'.scope = v.scope) ∨ v'.expr.Names component := by
  induction h with
  | nil => cases hv'
  | declare d _ ih =>
    rcases List.mem_cons.1 hv' with hv' | hv'
    · cases hv'
    · refine (ih hr.of_cons hv').imp_left ?_
      rintro ⟨v, hv, h⟩
      exact ⟨v, List.mem_cons_of_mem _ hv, h⟩
  | kept w w' hk hp he hs _ _ ih =>
    rcases List.mem_cons.1 hv' with hv' | hv'
    · cases hv'
      exact Or.inl ⟨w, List.mem_cons_self, ⟨hk, hp⟩, he, hs⟩
    · refine (ih hr.of_cons hv').imp_left ?_
      rintro ⟨v, hv, h⟩
      exact ⟨v, List.mem_cons_of_mem _ hv, h⟩
  | replaced e new scope around parent parent' k k' hk _ ih =>
    rcases List.mem_append.1 hv' with hv' | hv'
    · obtain ⟨-, hnew⟩ := hr.access hk
      right
      cases hnew with
      | ident =>
        simp only [Expr.visits, List.map_cons, List.map_nil, List.mem_singleton,
          Event.visit.injEq] at hv'
        exact hv' ▸ .ident
      | call callee =>
        simp only [Expr.visits, Expr.visitsArgs, List.map_cons, List.map_nil, List.mem_cons,
          Event.visit.injEq, List.append_nil, List.not_mem_nil, or_false] at hv'
        rcases hv' with rfl | rfl
        · exact .call callee
        · exact .ident
      | member field =>
        simp only [Expr.visits, List.map_cons, List.map_nil, List.mem_cons, Event.visit.injEq,
          List.not_mem_nil, or_false] at hv'
        rcases hv' with rfl | rfl
        · exact .member field
        · exact .ident
    · refine (ih hr.of_append hv').imp_left ?_
      rintro ⟨v, hv, h⟩
      exact ⟨v, List.mem_append_right _ hv, h⟩

end Rewritten

/-! ## The vector sighted again -/

/-- A vector on the walk of a program, and on that of the program in which
accesses were replaced by `r`. What is left alone has scopes that `R` tells
of. -/
structure Sighting.Succeeds {namePrefix : String} {p p' : Program} (s : Sighting namePrefix p.walk)
    (s' : Sighting namePrefix p'.walk) (r : Replacement) (component : String)
    (R : ScopeTree → ScopeTree → Prop) : Prop where
  name : s'.declared.symbol.name = s.declared.symbol.name
  packing : s'.packing = s.packing
  occurrence : s'.occurrence = s.occurrence
  forth : ∀ v, .visit v ∈ s.after → r.Leaves v → ∃ v', .visit v' ∈ s'.after ∧
    v'.expr = v.expr.rewrite r v.ordinal ∧ R v.scope v'.scope
  back : ∀ v', .visit v' ∈ s'.after → (∃ v, .visit v ∈ s.after ∧ r.Leaves v ∧
    v'.expr = v.expr.rewrite r v.ordinal ∧ R v.scope v'.scope) ∨ v'.expr.Names component
  means : ∀ t t', R t t' → (t'.lookup s.declared.symbol.name = some s'.declared.symbol ↔
    t.lookup s.declared.symbol.name = some s.declared.symbol)

theorem Expr.Names.base_eq {base : Expr} {name field : String}
    (h : (Expr.member base field).Names name) : base = .ident name := by
  cases h
  rfl

/-- Only a name that is left alone is rewritten to another name than that of
the component. -/
theorem Expr.rewrite_eq_ident {r : Replacement} {component name : String}
    (hr : ∀ k new, r k = some new → new.Names component) (hne : component ≠ name) {e : Expr}
    {k : Nat} (h : e.rewrite r k = .ident name) : e = .ident name := by
  cases hk : r k with
  | none =>
    refine Expr.eq_ident_of_name? ?_
    rw [← Expr.name?_rewrite hk, h]
    rfl
  | some new =>
    have hnew : new = .ident name := by cases e <;> simpa [rewrite, hk] using h
    have hnames := hr k new hk
    rw [hnew] at hnames
    cases hnames
    exact absurd rfl hne

/-- What lies within two constituents makes them meet. -/
theorem Swizzle.meets_of_within {name : String} {width : Nat} {s : Swizzle}
    (h : parse? name width = some s) {a b : Constituent} (ha : s.isWithin a.offset a.width = true)
    (hb : s.isWithin b.offset b.width = true) : a.meets b = true := by
  obtain ⟨k, hk⟩ := List.exists_mem_of_length_pos (parse?_length h).1
  have hka := le_of_isWithin ha k hk
  have hkb := le_of_isWithin hb k hk
  have hleft : a.offset < b.stop := Nat.lt_of_le_of_lt hka.1 hkb.2
  have hright : b.offset < a.stop := Nat.lt_of_le_of_lt hkb.1 hka.2
  simp [Constituent.meets, hleft, hright]

namespace Sighting

variable {namePrefix : String} {p p' : Program} {s : Sighting namePrefix p.walk}
  {s' : Sighting namePrefix p'.walk} {rules rules' : MergeRules} {c c₀ : Constituent}
  {plan : ExtractionPlan} {R : ScopeTree → ScopeTree → Prop}

/-- The constituents of a vector lie apart. -/
theorem constituents_apart {events : List Event} (s : Sighting namePrefix events) :
    s.packing.constituents.Pairwise (fun a b => a.meets b = false) ∧
      ∀ c ∈ s.packing.constituents, 0 < c.width := by
  obtain ⟨-, -, provenance, hdecode, -, hcs⟩ := Symbol.packing?_eq_some.1 s.packed
  rw [hcs]
  exact Provenance.apart_of_decode hdecode

theorem not_meets {events : List Event} (s : Sighting namePrefix events)
    (hc : c ∈ s.packing.constituents) (hc₀ : c₀ ∈ s.packing.constituents) (hne : c ≠ c₀) :
    c.meets c₀ = false := by
  have : Std.Symm fun a b : Constituent => a.meets b = false :=
    ⟨fun a b h => by rw [← h]; simp [Constituent.meets, Bool.and_comm]⟩
  exact s.constituents_apart.1.forall hc hc₀ hne

namespace Plans

/-- Neither an access nor anything else has a name at its front that is
replaced. -/
theorem front_eq_none (h : s.Plans rules c₀ plan) {v : Visit} (hv : v ∈ p.visits) {name : String}
    (hfront : v.expr.children.head? = some (.ident name)) :
    plan.replacement (v.ordinal + 1) = none := by
  rw [Option.eq_none_iff_forall_ne_some]
  intro new hnew
  obtain ⟨w, hw, hord, swizzle, hp, -⟩ := h.replacement_eq_some.1 hnew
  obtain ⟨field, hfield, -⟩ := hp.expr
  have hnext := p.partsFollow v.ordinal v.expr _ (Program.exprs_ordinal hv) hfront
  rw [← hord, Program.exprs_ordinal hw, hfield] at hnext
  cases hnext

/-- An access of another constituent is left alone. -/
theorem leaves (h : s.Plans rules c₀ plan) (hmeets : c.meets c₀ = false) {v : Visit}
    (hv : v ∈ p.visits) {swizzle : Swizzle} (hp : s.Picks c v swizzle) :
    plan.replacement.Leaves v ∧ v.expr.rewrite plan.replacement v.ordinal = v.expr := by
  obtain ⟨field, hfield, hparse⟩ := hp.expr
  have hnone : plan.replacement v.ordinal = none := by
    rw [Option.eq_none_iff_forall_ne_some]
    intro new hnew
    obtain ⟨swizzle', hp', -⟩ := (h.replacement_ordinal_eq_some hv).1 hnew
    exact Bool.false_ne_true (hmeets.symm.trans
      (Swizzle.meets_of_within hparse hp.within (hp'.within_of_expr hfield hparse)))
  have hfront : plan.replacement (v.ordinal + 1) = none :=
    h.front_eq_none hv (by rw [hfield]; rfl)
  refine ⟨⟨hnone, fun k hk => ?_⟩, ?_⟩
  · rw [Option.eq_none_iff_forall_ne_some]
    intro new hnew
    have := (h.parent_eq hv hk hnew).1
    rw [hfield] at this
    cases this
  · simp [hfield, Expr.rewrite, hnone, hfront]

end Plans

namespace Succeeds

variable (S : s.Succeeds s' plan.replacement c₀.name R) (h : s.Plans rules c₀ plan)
  (hc₀ : c₀ ∈ s.packing.constituents)

include S hc₀ in
theorem name_ne : c₀.name ≠ s'.declared.symbol.name := S.name ▸ s.component_ne hc₀

include S h in
/-- An access of another constituent is still there. -/
theorem picks_forth (hmeets : c.meets c₀ = false) {v : Visit} (hv : v ∈ p.visits)
    {swizzle : Swizzle} (hp : s.Picks c v swizzle) :
    ∃ v' ∈ p'.visits, s'.Picks c v' swizzle ∧ R v.scope v'.scope := by
  obtain ⟨hl, hkept⟩ := h.leaves hmeets hv hp
  have hwalk : .visit v ∈ p.walk := Program.mem_visits.1 hv
  obtain ⟨v', hv', hexpr, hR⟩ :=
    S.forth v (s.mem_after hwalk (ScopeTree.lookup_mem hp.means).1) hl
  obtain ⟨field, hfield, hparse⟩ := hp.expr
  rw [hkept, hfield] at hexpr
  refine ⟨v', ?_, ⟨⟨field, ?_, ?_⟩, ?_, hp.within⟩, hR⟩
  · exact Program.mem_visits.2 (s'.mem_walk hv')
  · rw [hexpr, S.name]
  · rw [S.packing, hparse]
  · rw [S.name]
    exact (S.means _ _ hR).2 hp.means

include S h hc₀

/-- An access afterwards was one before, and it was left alone. -/
theorem picks_back {v' : Visit} (hv' : v' ∈ p'.visits) {swizzle : Swizzle}
    (hp : s'.Picks c v' swizzle) :
    ∃ v ∈ p.visits, s.Picks c v swizzle ∧ plan.replacement.Leaves v ∧ R v.scope v'.scope := by
  have hne := S.name_ne hc₀
  obtain ⟨field, hfield, hparse⟩ := hp.expr
  have hwalk : .visit v' ∈ p'.walk := Program.mem_visits.1 hv'
  rcases S.back v' (s'.mem_after hwalk (ScopeTree.lookup_mem hp.means).1) with
    ⟨v, hv, hl, hexpr, hR⟩ | hnames
  · have hmem : v ∈ p.visits := Program.mem_visits.2 (s.mem_walk hv)
    have hmember : v.expr = .member (.ident s.declared.symbol.name) field := by
      rw [hfield] at hexpr
      cases he : v.expr with
      | member base name =>
        simp only [he, Expr.rewrite, hl.1, Option.getD_none, Expr.member.injEq] at hexpr
        obtain ⟨hbase, rfl⟩ := hexpr
        rw [Expr.rewrite_eq_ident (fun _ _ => h.names) hne hbase.symm, S.name]
      | _ => simp [he, Expr.rewrite, hl.1] at hexpr
    refine ⟨v, hmem, ⟨⟨field, hmember, S.packing ▸ hparse⟩, ?_, hp.within⟩, hl, hR⟩
    exact (S.means _ _ hR).1 (S.name ▸ hp.means)
  · rw [hfield] at hnames
    exact absurd (Expr.ident.inj hnames.base_eq).symm hne

/-- The constituent that was taken out is not accessed any more. -/
theorem not_picks {v' : Visit} (hv' : v' ∈ p'.visits) (swizzle : Swizzle) :
    ¬s'.Picks c₀ v' swizzle := by
  intro hp
  obtain ⟨v, hv, hp, hl, -⟩ := S.picks_back h hc₀ hv' hp
  obtain ⟨new, hnew⟩ := hp.exists_replacement rules.scalarSwizzles (c₀.type s.packing.elem)
  have hr := (h.replacement_ordinal_eq_some hv).2 ⟨swizzle, hp, hnew⟩
  rw [hl.1] at hr
  cases hr

/-- Nothing uses the vector in a way that no swizzle can follow. -/
theorem followed : ∀ e ∈ s'.after,
    MergedVector.opaqueBy s'.declared.symbol.id s'.packing.width e = false := by
  have hne := S.name_ne hc₀
  intro e he
  cases e with
  | declare d => rfl
  | visit v' =>
    refine Bool.eq_false_iff.2 fun hopaque => ?_
    obtain ⟨base, hb, huse⟩ := MergedVector.opaqueBy_visit.1 hopaque
    obtain ⟨rfl, hlookup⟩ := (Program.means_iff s'.declared_mem (s'.mem_walk he) base).1 hb
    rcases S.back v' he with ⟨v, hv, hl, hexpr, hR⟩ | hnames
    · -- What it was before used the vector in the same way.
      have hlookup := (S.means _ _ hR).1 (S.name ▸ hlookup)
      have hb : (Expr.ident s.declared.symbol.name).means v.scope s.declared.symbol.id = true :=
        (Program.means_iff s.declared_mem (s.mem_walk hv) _).2 ⟨rfl, hlookup⟩
      refine Bool.false_ne_true ((h.followed _ hv).symm.trans
        (MergedVector.opaqueBy_visit.2 ⟨_, hb, ?_⟩))
      rcases huse with ⟨name, hmember, hparse⟩ | ⟨position, hindex⟩
      · rw [hmember] at hexpr
        cases hv : v.expr with
        | member base name' =>
          simp only [hv, Expr.rewrite, hl.1, Option.getD_none, Expr.member.injEq] at hexpr
          obtain ⟨hbase, rfl⟩ := hexpr
          have hbase := Expr.rewrite_eq_ident (fun _ _ => h.names) hne hbase.symm
          rw [S.name] at hbase
          rw [S.packing] at hparse
          exact Or.inl ⟨name, congrArg (Expr.member · name) hbase, hparse⟩
        | _ => simp [hv, Expr.rewrite, hl.1] at hexpr
      · rw [hindex] at hexpr
        cases hv : v.expr with
        | index base position' =>
          simp only [hv, Expr.rewrite, hl.1, Option.getD_none, Expr.index.injEq] at hexpr
          have hbase := Expr.rewrite_eq_ident (fun _ _ => h.names) hne hexpr.1.symm
          rw [S.name] at hbase
          exact Or.inr ⟨position', congrArg (Expr.index · position') hbase⟩
        | _ => simp [hv, Expr.rewrite, hl.1] at hexpr
    · rcases huse with ⟨name, hmember, -⟩ | ⟨position, hindex⟩
      · rw [hmember] at hnames
        exact absurd (Expr.ident.inj hnames.base_eq).symm hne
      · rw [hindex] at hnames
        cases hnames

end Succeeds

end Sighting

end ShaderMorph
