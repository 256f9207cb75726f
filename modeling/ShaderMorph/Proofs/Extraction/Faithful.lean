-- Taking a constituent out is faithful. What stands for an access picks the
-- same components and has the same type, and every other expression that has
-- a type keeps it, as its names go on to stand for what they stood for.
import ShaderMorph.Proofs.Extraction.Names
import ShaderMorph.Proofs.Extraction.Selection
import ShaderMorph.Proofs.Typing.Congruence
import ShaderMorph.Proofs.Walk.Alignment

namespace ShaderMorph

/-! ## The type of what stands for an access -/

/-- Where its name means a variable of the type of the constituent, what
stands for an access has as many components as the access picks. -/
theorem Constituent.typeOf_replacement {d : DeclaredTypes} {c : Constituent} {elem : ElementKind}
    {name : String} {width : Nat} {swizzle : Swizzle} {new : Expr} {scope : ScopeTree} {u : Symbol}
    (hs : Swizzle.parse? name width = some swizzle)
    (hin : swizzle.isWithin c.offset c.width = true)
    (hnew : c.replacement? d.scalarSwizzles (c.type elem) swizzle = some new)
    (hu : scope.lookup c.name = some u) (htype : u.type = c.type elem) :
    d.typeOf scope new = some (.ofComponents elem swizzle.length) := by
  have hident : d.typeOf scope (.ident c.name) = some (.ofComponents elem c.width) := by
    simp [DeclaredTypes.typeOf, hu, htype, Constituent.type]
  rcases replacement?_cases hs hin hnew with
    ⟨hall, rfl⟩ | ⟨hone, -, hlength, -, rfl⟩ | ⟨hscalar, field, rfl, hfield⟩
  · have hlength : swizzle.length = c.width := by
      rw [Swizzle.length, hall, List.length_range']
    rw [hident, hlength]
  · have hvector : DataType.ofComponents elem swizzle.length = .vector elem swizzle.length :=
      if_neg (by omega)
    simp [DeclaredTypes.typeOf, DataType.ofName?_text_vector elem hlength, hvector]
  · have hswizzled : ¬(c.width = 1 ∧ d.scalarSwizzles = false) := by
      rintro ⟨hone, hfalse⟩
      rw [hscalar hone] at hfalse
      cases hfalse
    rw [DeclaredTypes.typeOf, hident]
    simp only [Option.bind_eq_bind, Option.bind_some, DataType.memberOf?_ofComponents, hswizzled,
      if_false, hfield, Option.map_some]
    simp [Swizzle.length]

/-- An expression before and after accesses were replaced. -/
structure Visit.Typed (r : Replacement) (oracle oracle' : TypeOracle) (v v' : Visit) : Prop where
  expr : v'.expr = v.expr.rewrite r v.ordinal
  type : ∀ t, oracle v.expr v.scope = some t → oracle' v'.expr v'.scope = some t
  access : (r v.ordinal).isSome →
    ∃ t, oracle v.expr v.scope = some t ∧ oracle' v'.expr v'.scope = some t

namespace Sighting

variable {namePrefix : String} {p p' : Program} {s : Sighting namePrefix p.walk}
  {rules : MergeRules} {c : Constituent} {plan : ExtractionPlan}

namespace Plans

/-- What an access is replaced by has its type, where the name of the
constituent means a variable of the type of the constituent. -/
theorem typeOf_access (h : s.Plans rules c plan) {d : DeclaredTypes}
    (hd : rules.scalarSwizzles = d.scalarSwizzles) {v : Visit} (hv : v ∈ p.visits) {new : Expr}
    (hnew : plan.replacement v.ordinal = some new) {scope : ScopeTree}
    (hscope : ∀ swizzle, s.Picks c v swizzle →
      ∃ u, scope.lookup c.name = some u ∧ u.type = c.type s.packing.elem) :
    ∃ t, d.typeOf v.scope v.expr = some t ∧ d.typeOf scope new = some t := by
  obtain ⟨swizzle, hp, hr⟩ := (h.replacement_ordinal_eq_some hv).1 hnew
  obtain ⟨field, -, hparse⟩ := hp.expr
  obtain ⟨u, hu, htype⟩ := hscope swizzle hp
  rw [hd] at hr
  exact ⟨_, hp.typeOf d, Constituent.typeOf_replacement hparse hp.within hr hu htype⟩

/-- An expression is typed as before in a scope where the name of the
constituent means a variable of its type at each access, and every other name
something of the same type. -/
theorem keeps_types (h : s.Plans rules c plan)
    (hd : rules.scalarSwizzles = p.version.hasScalarSwizzles) {v w v' : Visit}
    (hv : .visit v ∈ p.walk) (hw : v.Became plan.replacement w) (hexpr : v'.expr = w.expr)
    (haccess : ∀ u ∈ p.visits, u.scope = v.scope → ∀ swizzle, s.Picks c u swizzle →
      ∃ x, v'.scope.lookup c.name = some x ∧ x.type = c.type s.packing.elem)
    (hnamed : ∀ u ∈ v.parts p.prototypes, ∀ name, u.expr = .ident name →
      ∀ x, v.scope.lookup name = some x →
        ∃ x', v'.scope.lookup name = some x' ∧ x'.type = x.type) :
    v.Typed plan.replacement p.declaredTypes p.declaredTypes v' := by
  have hexpr := hexpr.trans hw.expr
  have hreplaced : ∀ u ∈ v.parts p.prototypes, ∀ new, plan.replacement u.ordinal = some new →
      ∃ t, (DeclaredTypes.ofProgram p).typeOf u.scope u.expr = some t ∧
        (DeclaredTypes.ofProgram p).typeOf v'.scope new = some t := by
    intro u hu new hnew
    have hscope : u.scope = v.scope := Visit.scope_of_parts hu
    have hmem := Program.mem_visits.2 ((Program.walk_stretch hv).subset (List.mem_map_of_mem hu))
    exact h.typeOf_access hd hmem hnew (haccess u hmem hscope)
  have hkeeps : ∀ u ∈ v.parts p.prototypes,
      (DeclaredTypes.ofProgram p).Keeps plan.replacement v'.scope u := by
    intro u hu
    constructor
    · intro new hnew t ht
      obtain ⟨t', ht', htnew⟩ := hreplaced u hu new hnew
      rwa [← Option.some.inj (ht'.symm.trans ht)]
    · intro name hname _ _ x hx
      rw [Visit.scope_of_parts hu] at hx
      exact hnamed u hu name hname x hx
  refine ⟨hexpr, ?_, ?_⟩
  · intro t ht
    rw [hexpr]
    cases hnew : plan.replacement v.ordinal with
    | none =>
      exact DeclaredTypes.carries_rewrite p.prototypes plan.replacement v.expr (hw.outer hnew)
        hkeeps t ht
    | some new =>
      rw [v.expr.rewrite_of_some hnew]
      exact (hkeeps v (v.mem_parts _)).replaced new hnew t ht
  · intro hsome
    obtain ⟨new, hnew⟩ := Option.isSome_iff_exists.1 hsome
    rw [hexpr, v.expr.rewrite_of_some hnew]
    exact hreplaced v (v.mem_parts _) new hnew

/-- What stands for an access picks the same components of the vector, and is
a call only where a component is picked twice. -/
theorem selects (h : s.Plans rules c plan) {v : Visit} (hv : v ∈ p.visits) {new : Expr}
    (hnew : plan.replacement v.ordinal = some new) :
    ∃ swizzle, s.Picks c v swizzle ∧ c.picked? new = some swizzle.components ∧
      (swizzle.components.Nodup →
        new = .ident c.name ∨ ∃ field, new = .member (.ident c.name) field) := by
  obtain ⟨swizzle, hp, hr⟩ := (h.replacement_ordinal_eq_some hv).1 hnew
  obtain ⟨field, -, hparse⟩ := hp.expr
  exact ⟨swizzle, hp, Constituent.picked?_replacement hparse hp.within hr,
    Constituent.replacement?_of_nodup hparse hp.within hr⟩

/-- When a declaration at hand serves, all scopes stay as they are. -/
theorem aligned_of_reuse (h : s.Plans rules c plan)
    (hd : rules.scalarSwizzles = p.version.hasScalarSwizzles) {d : Declared} (hmem : d ∈ p.declared)
    (htype : d.symbol.type = c.type s.packing.elem)
    (hall : ∀ a ∈ s.accesses rules c, a.2 = .sameFrame d.symbol.id) :
    Visit.Aligned plan.replacement
      (Visit.Typed plan.replacement p.declaredTypes (p.rewrite plan.replacement).declaredTypes)
      p.visits (p.rewrite plan.replacement).visits := by
  have hsame : List.Forall₂ (fun w w' : Visit => w' = w) (p.rewrite plan.replacement).visits
      (p.rewrite plan.replacement).visits := List.forall₂_same.2 fun _ _ => rfl
  have hr := (p.walk_rewrite plan.replacement).aligned
  rw [← Program.visits_eq, ← Program.visits_eq] at hr
  rw [Program.declaredTypes_rewrite]
  refine hr.comp hsame (fun w w' hw => by rw [hw]) ?_
  intro v hv w w' hw hw'
  obtain rfl := hw'
  apply h.keeps_types hd (Program.mem_visits.1 hv) hw rfl
  · intro u hu hscope swizzle hp
    rw [hw.scope, ← hscope]
    exact ⟨d.symbol, lookup_of_reuse hmem hall hu hp, htype⟩
  · intro u hu name hname x hx
    rw [hw.scope]
    exact ⟨x, hx, rfl⟩

end Plans

namespace Inserted

theorem declaredTypes_eq (I : s.Inserted c plan.replacement p') :
    p'.declaredTypes = p.declaredTypes := by
  rw [← p.declaredTypes_rewrite plan.replacement]
  unfold Program.declaredTypes DeclaredTypes.ofProgram
  rw [Program.prototypes_putBefore I.put, Program.version_putBefore I.put]

theorem new_type (I : s.Inserted c plan.replacement p') :
    I.new.symbol.type = c.type s.packing.elem := I.type_eq

/-- In front of the vector, nothing is replaced and all names mean the
same. -/
theorem typed_before (I : s.Inserted c plan.replacement p') (h : s.Plans rules c plan)
    (hd : rules.scalarSwizzles = p.version.hasScalarSwizzles) (hfree : s.Free rules c)
    {v w v' : Visit} (hv : .visit v ∈ s.before) (hw : v.Became plan.replacement w)
    (hexpr : v'.expr = w.expr)
    (hg : w.scope.Grafted I.new.symbol False v'.scope ∨
      .visit w ∈ I.enlargement.lead ∧ w.scope.Grafted I.new.symbol True v'.scope) :
    v.Typed plan.replacement p.declaredTypes p.declaredTypes v' := by
  apply h.keeps_types hd (s.before_mem_walk hv) hw hexpr
  · intro u _ hscope swizzle hp
    have hmem := (ScopeTree.lookup_mem hp.means).1
    rw [hscope] at hmem
    exact absurd (Program.id_lt_of_before s.split hv hmem) (Nat.lt_irrefl _)
  · intro u hu name hname x hx
    have hscope : w.scope = u.scope := hw.scope.trans (Visit.scope_of_parts hu).symm
    have haround : w.around.initializerOf = u.around.initializerOf := by
      rw [hw.around, Visit.initializerOf_of_parts hu]
    rw [← Visit.scope_of_parts hu] at hx
    refine ⟨I.new.symbol.renumber x, ?_, rfl⟩
    rw [I.lookup_before hfree (Program.part_before s.split hv hu) hname hscope haround hg
      (Or.inr ⟨x, hx⟩), hx, Option.map_some]

/-- Behind the vector, the name of the constituent means the new variable at
each access, and all other names mean the same. -/
theorem typed_after (I : s.Inserted c plan.replacement p') (h : s.Plans rules c plan)
    (hd : rules.scalarSwizzles = p.version.hasScalarSwizzles) (hfree : s.Free rules c)
    {v w v' : Visit} (hv : .visit v ∈ s.after) (hw : v.Became plan.replacement w)
    (hmem : .visit w ∈ I.enlargement.after) (hexpr : v'.expr = w.expr)
    (hg : w.scope.Grafted I.new.symbol (w.scope.binds I.new.symbol.id = true) v'.scope) :
    v.Typed plan.replacement p.declaredTypes p.declaredTypes v' := by
  have hwalk := s.mem_walk hv
  apply h.keeps_types hd hwalk hw hexpr
  · intro u hu hscope swizzle hp
    exact ⟨I.new.symbol, I.lookup_access hfree hu hp hmem (hw.scope.trans hscope.symm) hg,
      I.new_type⟩
  · intro u hu name hname x hx
    have hscope : w.scope = u.scope := hw.scope.trans (Visit.scope_of_parts hu).symm
    have hu' := (Program.walk_stretch hwalk).subset (List.mem_map_of_mem hu)
    rw [← Visit.scope_of_parts hu] at hx
    refine ⟨I.new.symbol.renumber x, ?_, rfl⟩
    rw [I.lookup_after hfree hu' hname hmem hscope hg (Or.inr ⟨x, hx⟩), hx, Option.map_some]

theorem aligned (I : s.Inserted c plan.replacement p') (h : s.Plans rules c plan)
    (hd : rules.scalarSwizzles = p.version.hasScalarSwizzles) (hfree : s.Free rules c) :
    Visit.Aligned plan.replacement
      (Visit.Typed plan.replacement p.declaredTypes p'.declaredTypes) p.visits p'.visits := by
  have hp' := congrArg Event.visits I.enlargement.walk'
  rw [Event.visits_append, Event.visits_cons_declare, Event.visits_append,
    Event.visits_cons_declare, ← List.append_assoc] at hp'
  rw [I.declaredTypes_eq, Program.visits_eq, Program.visits_eq, congrArg Event.visits s.split,
    Event.visits_append, Event.visits_cons_declare, hp']
  refine Visit.Aligned.append ?_ ?_
  · have hbefore := I.before_rewritten.aligned
    rw [← I.before_eq, Event.visits_append] at hbefore
    have hmoved := List.rel_append
      ((Event.visits_moved I.enlargement.pre_moved).imp
        fun w v' hm => (⟨hm.1, Or.inl hm.2⟩ : v'.expr = w.expr ∧
          (w.scope.Grafted I.new.symbol False v'.scope ∨
            .visit w ∈ I.enlargement.lead ∧ w.scope.Grafted I.new.symbol True v'.scope)))
      ((forall₂_mem (Event.visits_moved I.enlargement.lead_moved)).imp
        fun w v' hm => ⟨hm.2.2.1, Or.inr ⟨Event.mem_visits.1 hm.1, hm.2.2.2⟩⟩)
    refine hbefore.comp hmoved (fun w v' hm => hm.1) ?_
    intro v hv w v' hw hm
    exact I.typed_before h hd hfree (Event.mem_visits.1 hv) hw hm.1 hm.2
  · have hafter := I.after_rewritten.aligned
    rw [← I.after_eq] at hafter
    refine hafter.comp (forall₂_mem (Event.visits_moved I.enlargement.after_moved))
      (fun w v' hm => hm.2.2.1) ?_
    intro v hv w v' hw hm
    exact I.typed_after h hd hfree (Event.mem_visits.1 hv) hw (Event.mem_visits.1 hm.1) hm.2.2.1
      hm.2.2.2

end Inserted

end Sighting

/-! ## Taking out what was reported -/

/-- Taking out what was reported is faithful. What stands for an access picks
from the constituent, as components of the vector, what the access picked, and
calls a constructor only where a component is picked more than once. The
expressions of the program are matched with those afterwards, the parts of
replaced accesses passed over. Each replaced access has the type that it had,
and so has every other expression that had one. -/
theorem Extraction.apply_faithful {p : Program} {namePrefix : String} {x : Extraction}
    (h : x ∈ p.extractions namePrefix) :
    ∃ plan p',
      (p.extractionPlans namePrefix p.declaredTypes).find? (·.extraction == x) = some plan ∧
      x.apply p namePrefix = .ok p' ∧
      ∃ s : Sighting namePrefix p.walk, ∃ c ∈ s.packing.constituents, s.extraction c = x ∧
        (∀ v ∈ p.visits, ∀ new, plan.replacement v.ordinal = some new →
          ∃ swizzle, s.Picks c v swizzle ∧ c.picked? new = some swizzle.components ∧
            (swizzle.components.Nodup →
              new = .ident c.name ∨ ∃ field, new = .member (.ident c.name) field)) ∧
        Visit.Aligned plan.replacement
          (Visit.Typed plan.replacement p.declaredTypes p'.declaredTypes) p.visits p'.visits := by
  obtain ⟨plan, p', hfind, happly, s, c, hc, hx, hs, happlied⟩ := exists_applied h
  refine ⟨plan, p', hfind, happly, s, c, hc, hx, fun v hv new hnew => hs.selects hv hnew, ?_⟩
  cases happlied with
  | reuse d _ hd _ htype hall => exact hs.aligned_of_reuse rfl hd htype hall
  | insert _ hfree _ I => exact I.aligned hs rfl hfree

theorem Extraction.apply_faithful_merged :
    mergedFloat ∈ Program.merged.extractions "GLF_merged" ∧
      ∃ plan p', mergedFloat.apply .merged "GLF_merged" = .ok p' ∧
        Visit.Aligned (ExtractionPlan.replacement plan)
          (Visit.Typed (ExtractionPlan.replacement plan) Program.merged.declaredTypes
            p'.declaredTypes) Program.merged.visits p'.visits := by
  have hx : mergedFloat ∈ Program.merged.extractions "GLF_merged" := by decide +kernel
  obtain ⟨plan, p', -, happly, -, -, -, -, -, haligned⟩ := apply_faithful hx
  exact ⟨hx, plan, p', happly, haligned⟩

end ShaderMorph
