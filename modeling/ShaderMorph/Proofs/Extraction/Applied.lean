-- What taking a constituent out makes of a program. The accesses are replaced
-- one by one, the last one first, and that comes to replacing them all at
-- once; and there always is a place for the new declaration. So a plan that
-- was just made can be carried out, and does what it says.
import ShaderMorph.Proofs.Address.Search
import ShaderMorph.Proofs.Extraction.Accesses
import ShaderMorph.Proofs.Walk.Enlargement
import ShaderMorph.Proofs.Walk.Rewritten
import ShaderMorph.Shader.Build

namespace ShaderMorph

/-! ## Replacing the accesses -/

/-- Put the replacement of each access in its place. -/
def Replacement.ofAccesses (accesses : List Access) : Replacement := fun k =>
  (accesses.find? (·.ordinal == k)).map (·.replacement)

namespace Replacement

theorem ofAccesses_nil : ofAccesses [] = nothing := rfl

theorem ofAccesses_cons (a : Access) (as : List Access) :
    ofAccesses (a :: as) = (ofAccesses as).add a.ordinal a.replacement := by
  funext k
  by_cases h : a.ordinal = k
  · simp [ofAccesses, add, h]
  · have hb : (a.ordinal == k) = false := by simpa using h
    simp [ofAccesses, add, hb, Ne.symm h]

theorem ofAccesses_eq_some {as : List Access} (h : as.Pairwise (·.ordinal < ·.ordinal)) {k : Nat}
    {new : Expr} :
    ofAccesses as k = some new ↔ ∃ a ∈ as, a.ordinal = k ∧ a.replacement = new := by
  induction as with
  | nil => simp [ofAccesses]
  | cons a as ih =>
    obtain ⟨ha, has⟩ := List.pairwise_cons.1 h
    rw [ofAccesses_cons]
    by_cases hk : k = a.ordinal
    · subst hk
      rw [add_self]
      constructor
      · intro hn
        exact ⟨a, List.mem_cons_self, rfl, Option.some.inj hn⟩
      · rintro ⟨b, hb, hord, rfl⟩
        rcases List.mem_cons.1 hb with rfl | hb
        · rfl
        · exact absurd hord (Nat.ne_of_gt (ha b hb))
    · rw [add_ne _ _ hk, ih has]
      constructor
      · rintro ⟨b, hb, hn⟩
        exact ⟨b, List.mem_cons_of_mem a hb, hn⟩
      · rintro ⟨b, hb, hord, hn⟩
        rcases List.mem_cons.1 hb with rfl | hb
        · exact absurd hord.symm hk
        · exact ⟨b, hb, hord, hn⟩

end Replacement

/-- A replacement leaves a visit alone, and what it is part of. -/
def Replacement.Leaves (r : Replacement) (v : Visit) : Prop :=
  r v.ordinal = none ∧ ∀ k, v.parent = some k → r k = none

/-- An access stands in a program: it has its number there, and accesses a
variable. -/
structure Access.Stands (p : Program) (a : Access) : Prop where
  expr : p.exprs[a.ordinal]? = some a.snapshot
  shape : ∃ x name, a.snapshot = .member (.ident x) name

namespace Program

theorem partsFollow (p : Program) : PartsFollow p.exprs := by
  rw [← script_exprs]
  refine .flatMap fun c _ => ?_
  cases c with
  | expr around e => exact e.partsFollow
  | declare v => exact .flatMap fun e _ => e.partsFollow
  | enter o => exact .nil
  | leave => exact .nil

/-- Replacing accesses one by one, from the last one on, is replacing them
all at once. What is replaced has no access in it, and what is in front of it
keeps its number. -/
theorem replaceAccesses_eq (p : Program) {as : List Access}
    (h : as.Pairwise (·.ordinal < ·.ordinal)) (hs : ∀ a ∈ as, a.Stands p) :
    p.replaceAccesses as = .ok (p.rewrite (.ofAccesses as)) := by
  induction as with
  | nil => rw [Replacement.ofAccesses_nil, rewrite_nothing]; rfl
  | cons a as ih =>
    obtain ⟨hlt, has⟩ := List.pairwise_cons.1 h
    obtain ⟨ha, hrest⟩ := List.forall_mem_cons.1 hs
    obtain ⟨x, name, hshape⟩ := ha.shape
    have hfresh : (Replacement.ofAccesses as).FreshTo a.ordinal := by
      intro j hj
      rw [Option.eq_none_iff_forall_ne_some]
      intro new hnew
      obtain ⟨b, hb, rfl, -⟩ := (Replacement.ofAccesses_eq_some has).1 hnew
      exact absurd (hlt b hb) (Nat.not_lt.2 hj)
    have hbase : Replacement.ofAccesses as (a.ordinal + 1) = none := by
      rw [Option.eq_none_iff_forall_ne_some]
      intro new hnew
      obtain ⟨b, hb, hord, -⟩ := (Replacement.ofAccesses_eq_some has).1 hnew
      obtain ⟨y, field, hb'⟩ := (hrest b hb).shape
      have hident := p.partsFollow a.ordinal _ (.ident x) ha.expr (by rw [hshape]; rfl)
      rw [← hord, (hrest b hb).expr, hb'] at hident
      cases hident
    have hkept : a.snapshot.rewrite (.ofAccesses as) a.ordinal = a.snapshot := by
      simp [hshape, Expr.rewrite, hfresh a.ordinal (Nat.le_refl _), hbase]
    have hsame : a.snapshot.same a.snapshot = true := by simp [hshape, Expr.same]
    have hcons : p.replaceAccesses (a :: as) = (p.replaceAccesses as).bind a.apply := rfl
    rw [hcons, ih has hrest, Replacement.ofAccesses_cons]
    simp [Except.bind, Access.apply, p.exprPlace?_rewrite hfresh, ha.expr, hkept, hsame]

end Program

/-! ## Carrying out a plan -/

namespace ExtractionPlan

/-- The replacements of a plan. -/
def replacement (plan : ExtractionPlan) : Replacement := .ofAccesses plan.accesses

/-- What a plan makes of a program: all its accesses are replaced at once,
and where it says so, one declaration is put before that of the vector. -/
inductive Makes (plan : ExtractionPlan) (p : Program) : Program → Prop
  | reuse : plan.insertBefore = none → Makes plan p (p.rewrite plan.replacement)
  | insert (location : DeclLocation) (g : VariableGroup) (p' : Program) :
    plan.insertBefore = some location → (∃ v ∈ g.members, v.name = plan.extraction.vector) →
      (p.rewrite plan.replacement).PutBefore
        (.bare plan.extraction.component plan.extraction.type) g location p' → Makes plan p p'

end ExtractionPlan

namespace Sighting

/-- A program in which accesses were replaced and the constituent was declared
before its vector, and the walk over it. -/
structure Inserted {namePrefix : String} {p : Program} (s : Sighting namePrefix p.walk)
    (c : Constituent) (r : Replacement) (p' : Program) where
  group : VariableGroup
  put : (p.rewrite r).PutBefore (.bare c.name (c.type s.packing.elem)) group s.declared.location p'
  member : ∃ x ∈ group.members, x.name = s.declared.symbol.name
  before : List Event
  after : List Event
  before_rewritten : Rewritten p.prototypes r s.before before
  after_rewritten : Rewritten p.prototypes r s.after after
  enlargement : Enlargement (.before s.declared.location) (p.rewrite r).walk p'.walk
  before_eq : enlargement.pre ++ enlargement.lead = before
  vector_eq : enlargement.vector = s.declared
  after_eq : enlargement.after = after
  name_eq : enlargement.new.symbol.name = c.name
  type_eq : enlargement.new.symbol.type = c.type s.packing.elem
  depth_eq : enlargement.new.symbol.depth = enlargement.new.scope.depth
  redeclared_eq : enlargement.new.redeclared =
    (enlargement.new.scope.lookupInCurrentFrame c.name).isSome
  /-- What is in front of the group is the walk over whole commands. -/
  front : ∃ a rest, (p.rewrite r).script = a ++ rest ∧
    enlargement.pre = Command.run (p.rewrite r).prototypes a .start

variable {namePrefix : String} {p : Program} {s : Sighting namePrefix p.walk} {rules : MergeRules}
  {c : Constituent} {plan : ExtractionPlan}

/-- A constituent can be declared before any vector that takes a sibling. -/
theorem exists_inserted (s : Sighting namePrefix p.walk) (c : Constituent) (r : Replacement)
    (hs : s.declared.location.acceptsSibling = true) : ∃ p', Nonempty (s.Inserted c r p') := by
  obtain ⟨before, after, hw, hb, ha⟩ := (p.walk_rewrite r).split s.split
  obtain ⟨g, p', hput, hm, E, hE, hv, haft, hn, ht, hd, hr, hfront⟩ :=
    Program.exists_enlargement hw hs c.name (c.type s.packing.elem)
  exact ⟨p', ⟨g, hput, hm, before, after, hb, ha, E, hE, hv, haft, hn, ht, hd, hr, hfront⟩⟩

/-- What carrying out a plan makes of a program. The accesses are replaced, and
either a declaration at hand serves, the only one of the name in the frame of
the vector, or a new one goes in before that of the vector. -/
inductive Applied {namePrefix : String} {p : Program} (s : Sighting namePrefix p.walk)
    (rules : MergeRules) (c : Constituent) (plan : ExtractionPlan) : Program → Prop
  | reuse (d : Declared) : plan.insertBefore = none → d ∈ p.declared →
    s.frameSymbols c = [d.symbol] → d.symbol.type = c.type s.packing.elem →
    (∀ a ∈ s.accesses rules c, a.2 = .sameFrame d.symbol.id) →
    Applied s rules c plan (p.rewrite plan.replacement)
  | insert {p' : Program} : plan.insertBefore = some s.declared.location → s.Free rules c →
    s.declared.location.acceptsSibling = true → s.Inserted c plan.replacement p' →
    Applied s rules c plan p'

/-- The symbols of a constituent's name in the frame of its vector are declared
in the program. -/
theorem frameSymbols_declared (s : Sighting namePrefix p.walk) {u : Symbol}
    (hu : u ∈ s.frameSymbols c) : ∃ d ∈ p.declared, d.symbol = u := by
  rcases List.mem_append.1 hu with hu | hu
  · have hl := Option.mem_toList.1 hu
    have hd := Program.mem_declared.1 s.declared_mem
    have hw : s.declared.scope.WellFormed := Program.wellFormed_of_mem_walk hd
    obtain ⟨d, hmem, hsym, -⟩ :=
      Program.declared_of_bound hd (ScopeTree.lookup_mem (hw.lookup_of_frame hl).1).1
    exact ⟨d, hmem, hsym⟩
  · obtain ⟨d, hd, rfl⟩ := List.mem_map.1 hu
    refine ⟨d, ?_, rfl⟩
    exact Program.mem_declared.2 (s.mem_walk (Event.mem_declared.1 (List.mem_filter.1 hd).1))

namespace Plans

theorem pairwise (h : s.Plans rules c plan) : plan.accesses.Pairwise (·.ordinal < ·.ordinal) := by
  rw [h.accesses]
  exact List.pairwise_map.2 (s.accesses_pairwise rules)

theorem stands (h : s.Plans rules c plan) : ∀ a ∈ plan.accesses, a.Stands p := by
  intro a ha
  rw [h.accesses] at ha
  obtain ⟨⟨a, m⟩, ham, rfl⟩ := List.mem_map.1 ha
  obtain ⟨v, hv, swizzle, hp, -, hord, hsnap, -⟩ := (s.mem_accesses rules).1 ham
  obtain ⟨name, hname, -⟩ := hp.expr
  exact ⟨by rw [hord, hsnap, Program.exprs_ordinal hv], ⟨_, name, hsnap.trans hname⟩⟩

/-- What a plan replaces, and by what. -/
theorem replacement_eq_some (h : s.Plans rules c plan) {k : Nat} {new : Expr} :
    plan.replacement k = some new ↔
      ∃ v ∈ p.visits, v.ordinal = k ∧ ∃ swizzle, s.Picks c v swizzle ∧
        c.replacement? rules.scalarSwizzles (c.type s.packing.elem) swizzle = some new := by
  rw [ExtractionPlan.replacement, Replacement.ofAccesses_eq_some h.pairwise, h.accesses]
  constructor
  · rintro ⟨a, ha, rfl, rfl⟩
    obtain ⟨⟨a, m⟩, ham, rfl⟩ := List.mem_map.1 ha
    obtain ⟨v, hv, swizzle, hp, hr, hord, -⟩ := (s.mem_accesses rules).1 ham
    exact ⟨v, hv, hord.symm, swizzle, hp, hr⟩
  · rintro ⟨v, hv, rfl, swizzle, hp, hr⟩
    have hm := (s.mem_accesses rules (a := ⟨v.ordinal, v.expr, new⟩)).2
      ⟨v, hv, swizzle, hp, hr, rfl, rfl, rfl⟩
    exact ⟨_, List.mem_map_of_mem hm, rfl, rfl⟩

theorem replacement_ordinal_eq_some (h : s.Plans rules c plan) {v : Visit} (hv : v ∈ p.visits)
    {new : Expr} :
    plan.replacement v.ordinal = some new ↔ ∃ swizzle, s.Picks c v swizzle ∧
      c.replacement? rules.scalarSwizzles (c.type s.packing.elem) swizzle = some new := by
  rw [h.replacement_eq_some]
  constructor
  · rintro ⟨w, hw, hord, hpicked⟩
    obtain rfl := Program.visits_ext hw hv hord
    exact hpicked
  · exact fun hpicked => ⟨v, hv, rfl, hpicked⟩

/-- A new declaration goes before that of the vector, if anywhere. -/
theorem insertBefore_cases (h : s.Plans rules c plan) :
    plan.insertBefore = none ∨ plan.insertBefore = some s.declared.location := by
  have hout := h.outcome
  generalize plan.insertBefore = o at hout
  cases hout with
  | reuse => exact Or.inl rfl
  | insert => exact Or.inr rfl

/-- A plan that was just made can be carried out. -/
theorem exists_applied (h : s.Plans rules c plan) :
    ∃ p', plan.apply p = .ok p' ∧ s.Applied rules c plan p' := by
  have hreplace : p.replaceAccesses plan.accesses = .ok (p.rewrite plan.replacement) :=
    p.replaceAccesses_eq h.pairwise h.stands
  have hout := h.outcome
  rcases h.insertBefore_cases with hi | hi
  · rw [hi] at hout
    cases hout with
    | reuse u hu htype hall =>
      obtain ⟨d, hd, rfl⟩ := s.frameSymbols_declared (hu ▸ List.mem_singleton_self u)
      refine ⟨_, ?_, .reuse d hi hd hu htype hall⟩
      simp [ExtractionPlan.apply, hreplace, hi]
  · rw [hi] at hout
    cases hout with
    | insert hfree hl =>
      obtain ⟨p', ⟨I⟩⟩ := s.exists_inserted c plan.replacement hl
      have hname : plan.extraction.component = c.name := congrArg (·.component) h.extraction
      have htype : plan.extraction.type = c.type s.packing.elem := congrArg (·.type) h.extraction
      refine ⟨p', ?_, .insert hi hfree hl I⟩
      simp only [ExtractionPlan.apply, hreplace, hi, hname, htype]
      exact I.put.declareBefore_eq

/-- What a visit is part of, when that is replaced, is an access of which it is
the name of the vector. -/
theorem parent_eq (h : s.Plans rules c plan) {v : Visit} (hv : v ∈ p.visits) {k : Nat}
    (hk : v.parent = some k) {new : Expr} (hnew : plan.replacement k = some new) :
    v.expr = .ident s.declared.symbol.name ∧
      ∃ w ∈ p.visits, w.ordinal = k ∧ w.scope = v.scope ∧ ∃ swizzle, s.Picks c w swizzle := by
  obtain ⟨w, hw, rfl, hc, hscope⟩ := Program.parent_visited (Program.mem_visits.1 hv) hk
  have hw : w ∈ p.visits := Program.mem_visits.2 hw
  obtain ⟨swizzle, hp, -⟩ := (h.replacement_ordinal_eq_some hw).1 hnew
  obtain ⟨name, hname, -⟩ := hp.expr
  rw [hname, Expr.children, List.mem_singleton] at hc
  exact ⟨hc, w, hw, rfl, hscope, swizzle, hp⟩

end Plans

/-- What a plan has to do with the uses of a vector. It replaces all swizzles
within the constituent, and beside them nothing: not an access that spans
several constituents, nor a use of the vector as a whole. -/
structure CoveredBy (s : Sighting namePrefix p.walk) (c : Constituent) (plan : ExtractionPlan) :
    Prop where
  location : ∀ l, plan.insertBefore = some l → l = s.declared.location
  replacement : ∀ k new, plan.replacement k = some new ↔
    ∃ v ∈ p.visits, v.ordinal = k ∧ ∃ swizzle, s.Picks c v swizzle ∧
      c.replacement? p.version.hasScalarSwizzles (c.type s.packing.elem) swizzle = some new
  picks : ∀ v ∈ p.visits, ∀ swizzle, s.Picks c v swizzle → (plan.replacement v.ordinal).isSome
  spanning : ∀ v ∈ p.visits, ∀ name swizzle,
    v.expr = .member (.ident s.declared.symbol.name) name →
      Swizzle.parse? name s.packing.width = some swizzle →
        swizzle.isWithin c.offset c.width = false → plan.replacement.Leaves v
  bare : ∀ v ∈ p.visits, v.expr = .ident s.declared.symbol.name →
    (∀ w ∈ p.visits, v.parent = some w.ordinal → ∀ swizzle, ¬s.Picks c w swizzle) →
      plan.replacement.Leaves v

theorem Plans.coveredBy {oracle : TypeOracle}
    (h : s.Plans ⟨namePrefix, oracle, p.version.hasScalarSwizzles⟩ c plan) :
    s.CoveredBy c plan where
  location l hl := by
    rcases h.insertBefore_cases with hi | hi
    · rw [hi] at hl
      cases hl
    · exact Option.some.inj (hl.symm.trans hi)
  replacement k new := h.replacement_eq_some
  picks v hv swizzle hp := by
    obtain ⟨new, hnew⟩ :=
      hp.exists_replacement p.version.hasScalarSwizzles (c.type s.packing.elem)
    rw [(h.replacement_ordinal_eq_some hv).2 ⟨swizzle, hp, hnew⟩]
    rfl
  spanning v hv name swizzle hexpr hparse hout := by
    refine ⟨?_, fun k hk => ?_⟩
    · rw [Option.eq_none_iff_forall_ne_some]
      intro new hnew
      obtain ⟨swizzle', hp, -⟩ := (h.replacement_ordinal_eq_some hv).1 hnew
      exact Bool.false_ne_true (hout.symm.trans (hp.within_of_expr hexpr hparse))
    · rw [Option.eq_none_iff_forall_ne_some]
      intro new hnew
      have := (h.parent_eq hv hk hnew).1
      rw [hexpr] at this
      cases this
  bare v hv hexpr hbare := by
    refine ⟨?_, fun k hk => ?_⟩
    · rw [Option.eq_none_iff_forall_ne_some]
      intro new hnew
      obtain ⟨swizzle, hp, -⟩ := (h.replacement_ordinal_eq_some hv).1 hnew
      obtain ⟨name, hname, -⟩ := hp.expr
      rw [hexpr] at hname
      cases hname
    · rw [Option.eq_none_iff_forall_ne_some]
      intro new hnew
      obtain ⟨-, w, hw, rfl, -, swizzle, hp⟩ := h.parent_eq hv hk hnew
      exact hbare w hw hk swizzle hp

end Sighting

/-! ## Taking out what was reported -/

namespace Extraction

variable {p : Program} {namePrefix : String} {oracle : TypeOracle} {x : Extraction}

/-- Whatever is reported has a plan, and the first one is that of a
constituent of a vector that is sighted. It is the one that is carried out. -/
theorem exists_applied (h : x ∈ p.extractionsBy namePrefix oracle) :
    ∃ plan p', (p.extractionPlans namePrefix oracle).find? (·.extraction == x) = some plan ∧
      x.applyBy p namePrefix oracle = .ok p' ∧
      ∃ s : Sighting namePrefix p.walk, ∃ c ∈ s.packing.constituents, s.extraction c = x ∧
        s.Plans ⟨namePrefix, oracle, p.version.hasScalarSwizzles⟩ c plan ∧
        s.Applied ⟨namePrefix, oracle, p.version.hasScalarSwizzles⟩ c plan p' := by
  obtain ⟨plan₀, hmem, hx⟩ := List.mem_map.1 h
  have hsome : ((p.extractionPlans namePrefix oracle).find? (·.extraction == x)).isSome := by
    rw [List.find?_isSome]
    exact ⟨plan₀, hmem, beq_iff_eq.2 hx⟩
  obtain ⟨plan, hplan⟩ := Option.isSome_iff_exists.1 hsome
  obtain ⟨s, c, hc, hs⟩ := MergeFacts.mem_plans.1 (List.mem_of_find?_eq_some hplan)
  have hfound : plan.extraction = x := by simpa using List.find?_some hplan
  have happly : x.applyBy p namePrefix oracle = plan.apply p := by
    simp [applyBy, hplan]
  obtain ⟨p', ha, happlied⟩ := hs.exists_applied
  exact ⟨plan, p', hplan, happly.trans ha, s, c, hc, hs.extraction.symm.trans hfound, hs,
    happlied⟩

/-- What a scan does not report is stale. -/
theorem applyBy_of_notMem (h : x ∉ p.extractionsBy namePrefix oracle) :
    x.applyBy p namePrefix oracle = .error (.staleExtraction x.describe) := by
  have hnone : (p.extractionPlans namePrefix oracle).find? (·.extraction == x) = none := by
    rw [List.find?_eq_none]
    intro plan hplan hx
    exact h (List.mem_map.2 ⟨plan, hplan, beq_iff_eq.1 hx⟩)
  rw [applyBy, hnone]

/-- Taking out what was reported never fails, and does what the first plan for
it says. -/
theorem applyBy_exact (h : x ∈ p.extractionsBy namePrefix oracle) :
    ∃ plan p', (p.extractionPlans namePrefix oracle).find? (·.extraction == x) = some plan ∧
      x.applyBy p namePrefix oracle = .ok p' ∧ plan.Makes p p' ∧
        ∃ s : Sighting namePrefix p.walk, ∃ c ∈ s.packing.constituents,
          s.extraction c = x ∧ s.CoveredBy c plan := by
  obtain ⟨plan, p', hfind, happly, s, c, hc, hx, hs, happlied⟩ := exists_applied h
  refine ⟨plan, p', hfind, happly, ?_, s, c, hc, hx, hs.coveredBy⟩
  cases happlied with
  | reuse d hi => exact .reuse hi
  | insert hi hfree hl I =>
    refine .insert _ I.group p' hi ?_ ?_
    · rw [hs.extraction]
      exact I.member
    · rw [hs.extraction]
      exact I.put

end Extraction

/-! ## A program with a merged vector -/

/-- A merged vector of a float `b` and a `vec2` named `c`, behind a global that
is named like the float. -/
def Program.merged : Program :=
  let name := "GLF_merged2_0_1_1_1_2_1bc"
  let access (field : String) : Expr := .member (.ident name) field
  ⟨.essl300, [.globals (.scalar .float) [.plain "b"],
    .define .void "main" [] [.declare (.vector .float 3) name,
      .expr (.assign (access "x") (access "y")), .expr (.assign (access "zy") (access "xx")),
      .expr (access "xyz"), .expr (.ident name)]]⟩

/-- The float of that vector. -/
def Extraction.mergedFloat : Extraction := ⟨"GLF_merged2_0_1_1_1_2_1bc", "b", .scalar .float, 0⟩

theorem Extraction.applyBy_exact_merged :
    mergedFloat ∈ Program.merged.extractionsBy "GLF_merged" Program.merged.declaredTypes ∧
      ∃ plan p', mergedFloat.applyBy .merged "GLF_merged" Program.merged.declaredTypes = .ok p' ∧
        ExtractionPlan.Makes plan .merged p' := by
  have hx : mergedFloat ∈
      Program.merged.extractionsBy "GLF_merged" Program.merged.declaredTypes := by decide +kernel
  obtain ⟨plan, p', -, happly, hmakes, -⟩ := applyBy_exact hx
  exact ⟨hx, plan, p', happly, hmakes⟩

end ShaderMorph
