-- Extractions from one vector commute. When one constituent is taken out,
-- the vector is sighted again, and what the analysis knows of a constituent of
-- another name is what it was, though numbers, ids and locations have moved.
-- So that one is still reported, its accesses are replaced as before, and only
-- the order of two new declarations tells which of the two was first.
import Mathlib.Data.List.Find
import ShaderMorph.Proofs.Extraction.Siblings
import ShaderMorph.Proofs.Walk.Transposed

namespace ShaderMorph

namespace Sighting

variable {namePrefix : String} {p p' : Program} {s : Sighting namePrefix p.walk}
  {s' : Sighting namePrefix p'.walk} {rules rules' : MergeRules} {c c₀ : Constituent}
  {plan : ExtractionPlan} {name : String}

/-! ## A declaration at hand -/

/-- An identifier of another name was there before accesses were replaced. -/
theorem Plans.outerUse_rewritten (h : s.Plans rules c₀ plan) (hne : name ≠ c₀.name) {v : Declared}
    {w' : Visit} (hw' : (p.rewrite plan.replacement).OuterUse v name w') :
    ∃ w, p.OuterUse v name w ∧ w'.scope = w.scope ∧ w'.around = w.around := by
  obtain ⟨hvisited, hexpr, houter⟩ := hw'
  have hidentifier : w' ∈ Event.identifiers (p.rewrite plan.replacement).walk :=
    List.mem_filter.2 ⟨Event.mem_visits.2 (Program.mem_visits.1 hvisited), by rw [hexpr]; rfl⟩
  obtain ⟨w, hw, hrenamed⟩ := forall₂_right
    ((p.walk_rewrite plan.replacement).identifiers (h.renames fun _ he => he)) hidentifier
  have hw : w ∈ p.visits := Program.mem_visits.2 (Event.mem_identifiers hw)
  cases hrenamed with
  | kept name' he he' _ hscope haround =>
    cases hexpr.symm.trans he'
    exact ⟨w, ⟨hw, he, hscope ▸ houter⟩, hscope, haround⟩
  | access k _ he' _ _ _ =>
    cases hexpr.symm.trans he'
    exact absurd rfl hne

/-- With a declaration at hand, a name of another constituent keeps what it
is to the vector. -/
theorem Plans.keeps_of_reuse (h : s.Plans rules c₀ plan)
    {s' : Sighting namePrefix (p.rewrite plan.replacement).walk} (hd : s'.declared = s.declared)
    (hpacking : s'.packing = s.packing)
    (hafter : Event.declared s'.after = Event.declared s.after) (hne : name ≠ c₀.name) :
    s.Keeps s' name (fun t t' => t' = t) id where
  type _ := rfl
  depth _ := rfl
  id _ _ := Iff.rfl
  vector := by rw [hd]
  sibling := by rw [hd]
  lookup := by
    rintro t _ rfl
    simp
  frame c _ := by simp only [frameSymbols, watch, hd, hpacking, hafter, List.map_id]
  reads hreads := by
    obtain ⟨w', hw', d, hdeclared, hinit, hgroup⟩ := s'.groupReads_iff.1 hreads
    rw [hd] at hw' hgroup
    obtain ⟨w, hw, -, haround⟩ := h.outerUse_rewritten hne hw'
    rw [Program.declared_rewrite] at hdeclared
    exact s.groupReads_iff.2 ⟨w, hw, d, hdeclared, haround ▸ hinit, hgroup⟩
  outer w' hw' := by
    rw [hd] at hw' ⊢
    obtain ⟨w, hw, hscope, -⟩ := h.outerUse_rewritten hne hw'
    exact ⟨w, hw, by rw [hscope]⟩

end Sighting

/-! ## A declaration that comes in -/

/-- What stands right before an event, and all of it visits, stands behind a
declaration in front. -/
theorem Event.mem_of_adjacent {a b front : List Event} {d : Declared} {vs : List Visit}
    (h : a ++ .declare d :: b = front ++ vs.map .visit) {w : Visit} (hw : w ∈ vs) :
    .visit w ∈ b := by
  have hd : .declare d ∉ vs.map Event.visit := by simp
  have hmem : .visit w ∈ vs.map Event.visit := List.mem_map_of_mem hw
  rcases List.append_eq_append_iff.1 h with ⟨between, -, hcons⟩ | ⟨between, -, hcons⟩
  · cases between with
    | nil =>
      rw [List.nil_append] at hcons
      exact absurd (hcons ▸ List.mem_cons_self) hd
    | cons e between =>
      obtain ⟨-, rfl⟩ := List.cons.inj hcons
      exact List.mem_append_right _ hmem
  · exact absurd (hcons ▸ List.mem_append_right _ List.mem_cons_self) hd

namespace Sighting

variable {namePrefix : String} {p p' : Program} {s : Sighting namePrefix p.walk}
  {rules rules' : MergeRules} {c c₀ : Constituent} {plan : ExtractionPlan} {name : String}

namespace Inserted

variable (I : s.Inserted c₀ plan.replacement p')

theorem location_sighting : I.sighting.declared.location = s.declared.location.pushed := by
  have hv := I.enlargement.vector_moved
  rw [I.vector_eq] at hv
  cases hv with
  | declare _ _ _ hl => exact hl

/-- All that the walk meets, without the new declaration. -/
theorem moved : List.Forall₂ (fun e e' => ∃ has,
      Event.Moved (.before s.declared.location) I.new.symbol has e e')
    (p.rewrite plan.replacement).walk
    (I.enlargement.pre' ++ (I.enlargement.lead' ++
      .declare I.enlargement.vector' :: I.enlargement.after')) := by
  have hwalk : (p.rewrite plan.replacement).walk = _ :=
    I.enlargement.walk.trans (List.append_assoc _ _ _)
  refine (congrArg (List.Forall₂ _ · _) hwalk).mpr ?_
  exact List.rel_append (I.enlargement.pre_moved.imp fun _ _ h => ⟨_, h⟩)
    (List.rel_append (I.enlargement.lead_moved.imp fun _ _ h => ⟨_, h⟩)
      (.cons ⟨_, I.enlargement.vector_moved⟩ (I.enlargement.after_moved.imp fun _ _ h => ⟨_, h⟩)))

theorem visit_forth {w : Visit} (hw : w ∈ (p.rewrite plan.replacement).visits) :
    ∃ w' ∈ p'.visits, w'.expr = w.expr ∧ w'.ordinal = w.ordinal ∧
      ∃ has, w.scope.Grafted I.new.symbol has w'.scope := by
  obtain ⟨e', he', has, hm⟩ := forall₂_left I.moved (Program.mem_visits.1 hw)
  cases hm with
  | visit _ w' hexpr hord hg =>
    refine ⟨w', Program.mem_visits.2 ?_, hexpr, hord, _, hg⟩
    rw [I.enlargement.walk']
    simp only [List.mem_append, List.mem_cons] at he' ⊢
    tauto

theorem visit_back {w' : Visit} (hw' : w' ∈ p'.visits) :
    ∃ w ∈ (p.rewrite plan.replacement).visits, w'.expr = w.expr ∧
      ∃ has, w.scope.Grafted I.new.symbol has w'.scope := by
  have hmem : .visit w' ∈ I.enlargement.pre' ++ (I.enlargement.lead' ++
      .declare I.enlargement.vector' :: I.enlargement.after') := by
    have hwalk := Program.mem_visits.1 hw'
    rw [I.enlargement.walk'] at hwalk
    simpa using hwalk
  obtain ⟨e, he, has, hm⟩ := forall₂_right I.moved hmem
  cases hm with
  | visit w _ hexpr _ hg => exact ⟨w, Program.mem_visits.2 he, hexpr, _, hg⟩

/-- A use of an outer variable, of another name, was one before. -/
theorem outerUse_back (hne : name ≠ c₀.name) {w w' : Visit}
    (hw : w ∈ (p.rewrite plan.replacement).visits) (hexpr : w'.expr = w.expr) {has : Prop}
    (hg : w.scope.Grafted I.new.symbol has w'.scope)
    (hw' : p'.OuterUse I.sighting.declared name w') :
    (p.rewrite plan.replacement).OuterUse s.declared name w := by
  obtain ⟨-, hname, u', hu', hlt⟩ := hw'
  refine ⟨hw, hexpr.symm.trans hname, ?_⟩
  rw [hg.kept name fun hcaught => hne (hcaught.2.1.symm.trans I.name_eq)] at hu'
  obtain ⟨u, hu, rfl⟩ := Option.map_eq_some_iff.1 hu'
  rw [I.sighting_symbol] at hlt
  exact ⟨u, hu, hlt⟩

/-- What is read in an initializer of the group, up to the vector, is met behind
the new declaration. -/
theorem mem_lead_of_group {w' : Visit} (hw' : w' ∈ p'.visits) {d : Declared}
    (hd : d ∈ p'.declared) (hinit : w'.around.initializerOf = some d.symbol.id)
    (hgroup : d = I.sighting.declared ∨
      d.location.precedesInGroup I.sighting.declared.location = true) :
    .visit w' ∈ I.enlargement.lead' := by
  have hmet : d = I.sighting.declared ∨ .declare d ∈ I.enlargement.lead' := by
    rcases hgroup with hself | hprecedes
    · exact Or.inl hself
    · refine (Program.precedes_before I.sighting.split hd hprecedes).imp_right fun hmet => ?_
      have hapart : .declare d ∉ I.enlargement.pre' ++ [.declare I.new] := fun hmem =>
        Bool.false_ne_true ((I.enlargement.apart d hmem).symm.trans hprecedes)
      have hmet : .declare d ∈ (I.enlargement.pre' ++ [.declare I.new]) ++ I.enlargement.lead' := by
        simpa [sighting] using hmet
      exact (List.mem_append.1 hmet).resolve_left hapart
  have hsplit : ∃ a b, p'.walk = I.enlargement.pre' ++ .declare I.new :: a ++ .declare d :: b ∧
      a ⊆ I.enlargement.lead' := by
    rcases hmet with rfl | hlead
    · exact ⟨_, _, I.sighting.split, fun _ h => h⟩
    · obtain ⟨a, b, hab⟩ := List.append_of_mem hlead
      refine ⟨a, b ++ .declare I.enlargement.vector' :: I.enlargement.after', ?_, ?_⟩
      · refine I.enlargement.walk'.trans ?_
        simp [new, hab]
      · rw [hab]
        exact List.subset_append_left _ _
  obtain ⟨a, b, hwalk, hsub⟩ := hsplit
  obtain ⟨front, vs, hvs, hmem⟩ := Program.initializer_adjacent hwalk hw' hinit
  exact hsub (Event.mem_of_adjacent hvs hmem)

variable (h : s.Plans rules c₀ plan)

include h in
/-- What the group reads of another name, it read before. -/
theorem groupReads_back (hne : name ≠ c₀.name)
    (hreads : I.sighting.declared.groupReads I.sighting.before name = true) :
    s.declared.groupReads s.before name = true := by
  obtain ⟨w', huse, d, hd, hinit, hgroup⟩ := I.sighting.groupReads_iff.1 hreads
  have hlead := I.mem_lead_of_group huse.visited hd hinit hgroup
  obtain ⟨e, he, hm⟩ := forall₂_right I.enlargement.lead_moved hlead
  cases hm with
  | visit w _ hexpr _ hg =>
    have hmem : ∀ {e : Event}, e ∈ I.enlargement.lead ∨ e = .declare I.enlargement.vector →
        e ∈ (p.rewrite plan.replacement).walk := by
      intro e he
      rw [I.enlargement.walk]
      simp only [List.mem_append, List.mem_cons]
      tauto
    have hw : w ∈ (p.rewrite plan.replacement).visits := Program.mem_visits.2 (hmem (Or.inl he))
    obtain ⟨d, hd, hinit, hprecedes⟩ := I.enlargement.reads w he
    obtain ⟨v, hv, -, haround⟩ := h.outerUse_rewritten hne (I.outerUse_back hne hw hexpr hg huse)
    rw [haround] at hinit
    rw [I.vector_eq] at hprecedes
    refine s.groupReads_iff.2 ⟨v, hv, d, ?_, hinit, Or.inr hprecedes⟩
    rw [← Program.declared_rewrite, Program.mem_declared]
    exact hmem (hd.imp_right (congrArg Event.declare))

/-- The declarations of another name, in the frame of the vector, stay. -/
theorem frameSymbols_moved (hne : c.name ≠ c₀.name) :
    I.sighting.frameSymbols c = (s.frameSymbols c).map I.new.symbol.renumber := by
  have hscope : s.declared.scope.Grafted I.new.symbol True I.sighting.declared.scope := by
    have hv := I.enlargement.vector_moved
    rw [I.vector_eq] at hv
    cases hv with
    | declare _ _ _ _ _ hg => exact hg
  have hfirst := hscope.lookupInCurrentFrame_eq (Program.wellFormed_of_mem_walk s.declare_mem)
    (Program.wellFormed_of_mem_walk I.sighting.declare_mem)
    (hscope.kept c.name fun hcaught => hne (hcaught.2.1.symm.trans I.name_eq))
  have hdeclared : Event.declared I.enlargement.after = Event.declared s.after := by
    rw [I.after_eq, I.after_rewritten.declared]
  have hmoved := Event.moved_declareds I.enlargement.after_moved
  rw [hdeclared] at hmoved
  have hjoined := List.rel_filter (p := (s.watch c).joins) (q := (I.sighting.watch c).joins)
    (fun d d' hm => by simp only [I.joins_moved c hm.1 hm.2.2]) hmoved
  have hsymbols : List.Forall₂ (· = ·)
      (((Event.declared s.after).filter (s.watch c).joins).map (I.new.symbol.renumber ·.symbol))
      (((Event.declared I.sighting.after).filter (I.sighting.watch c).joins).map (·.symbol)) := by
    rw [List.forall₂_map_left_iff, List.forall₂_map_right_iff]
    exact hjoined.imp fun _ _ hm => hm.1.symm
  rw [List.forall₂_eq_eq_eq] at hsymbols
  rw [frameSymbols, frameSymbols, List.map_append, List.map_map, hfirst, ← hsymbols,
    Option.toList_map]
  rfl

/-- With a new declaration in, a name of another constituent keeps what it is
to the vector. -/
theorem keeps (h : s.Plans rules c₀ plan) (hne : name ≠ c₀.name) :
    s.Keeps I.sighting name I.Grafts I.new.symbol.renumber where
  type _ := rfl
  depth _ := rfl
  id _ _ := ⟨Symbol.moveId_inj, congrArg I.new.symbol.moveId⟩
  vector := by rw [I.sighting_symbol, Symbol.depth_renumber]
  sibling := by rw [I.location_sighting, DeclLocation.acceptsSibling_pushed]
  lookup _ _ hR := hR.1.kept name fun hcaught => hne (hcaught.2.1.symm.trans I.name_eq)
  frame c hc := I.frameSymbols_moved (hc ▸ hne)
  reads := I.groupReads_back h hne
  outer w' hw' := by
    obtain ⟨w, hw, hexpr, has, hg⟩ := I.visit_back hw'.visited
    obtain ⟨v, hv, hscope, -⟩ := h.outerUse_rewritten hne (I.outerUse_back hne hw hexpr hg hw')
    refine ⟨v, hv, ?_⟩
    rw [I.sighting_symbol, Symbol.id_renumber, hg.binds, hscope]

/-- The accesses of another constituent are still told by what they are. -/
theorem uniform (hc₀ : c₀ ∈ s.packing.constituents) {plan' : ExtractionPlan}
    (h' : I.sighting.Plans rules' c plan') :
    plan'.replacement.Uniform (s.standIn rules'.scalarSwizzles c)
      (p.rewrite plan.replacement).visits := by
  intro w hw
  obtain ⟨w', hw', hexpr, hord, has, hg⟩ := I.visit_forth hw
  rw [← hord, h'.uniform w' hw', hexpr]
  exact standIn_congr (by rw [I.sighting_symbol, Symbol.name_renumber]) I.packing_sighting
    (I.means_iff hc₀ hg) w.expr

end Inserted

end Sighting

/-! ## The constituent that is found -/

namespace Sighting

variable {namePrefix : String} {p : Program} (s : Sighting namePrefix p.walk)

/-- The constituent that is taken out for an extraction: the first one that
looks like it and has a plan. -/
def found? (rules : MergeRules) (x : Extraction) : Option Constituent :=
  s.packing.constituents.find? fun c => (s.plan? rules c).isSome && s.extraction c == x

theorem found?_eq_some {rules : MergeRules} {x : Extraction} {c : Constituent}
    (h : s.found? rules x = some c) :
    c ∈ s.packing.constituents ∧ s.extraction c = x ∧ ∃ plan, s.Plans rules c plan := by
  have hfound := List.find?_some h
  simp only [Bool.and_eq_true, beq_iff_eq] at hfound
  obtain ⟨plan, hplan⟩ := Option.isSome_iff_exists.1 hfound.1
  exact ⟨List.mem_of_find?_eq_some h, hfound.2, plan, (s.plan?_eq_some rules c).1 hplan⟩

theorem find?_plans (oracle : TypeOracle) {x : Extraction}
    (hname : s.declared.symbol.name = x.vector) (hoccurrence : s.occurrence = x.occurrence) :
    (p.extractionPlans namePrefix oracle).find? (·.extraction == x) =
      (s.found? ⟨namePrefix, oracle, p.version.hasScalarSwizzles⟩ x).bind
        (s.plan? ⟨namePrefix, oracle, p.version.hasScalarSwizzles⟩) := by
  let rules : MergeRules := ⟨namePrefix, oracle, p.version.hasScalarSwizzles⟩
  obtain ⟨front, back, hplans, hother⟩ := MergeFacts.exists_plans_split rules s
  have hnone : ∀ l : List ExtractionPlan, (∀ plan ∈ l, plan ∈ front ++ back) →
      l.find? (·.extraction == x) = none := by
    intro l hl
    rw [List.find?_eq_none]
    intro plan hplan hx
    obtain rfl := beq_iff_eq.1 hx
    exact hother plan (hl plan hplan) hname.symm hoccurrence.symm
  have hany : ∀ c, (s.plan? rules c).any (·.extraction == x) =
      ((s.plan? rules c).isSome && s.extraction c == x) := by
    intro c
    cases hplan : s.plan? rules c with
    | none => rfl
    | some plan => simp [((s.plan?_eq_some rules c).1 hplan).extraction]
  have hfound : (s.vector rules).plans.find? (·.extraction == x) =
      (s.found? rules x).bind (s.plan? rules) := by
    rw [s.plans_eq, List.find?_filterMap]
    simp only [hany, found?]
  rw [Program.extractionPlans, hplans, List.find?_append, List.find?_append, hfound,
    hnone front fun _ => List.mem_append_left _, hnone back fun _ => List.mem_append_right _,
    Option.none_or, Option.or_none]

/-- What is reported has a constituent that is taken out for it. -/
theorem exists_found {oracle : TypeOracle} {x : Extraction}
    (h : x ∈ p.extractionsBy namePrefix oracle) (hname : s.declared.symbol.name = x.vector)
    (hoccurrence : s.occurrence = x.occurrence) :
    ∃ c, s.found? ⟨namePrefix, oracle, p.version.hasScalarSwizzles⟩ x = some c := by
  obtain ⟨plan, -, hfind, -⟩ := Extraction.exists_applied h
  rw [s.find?_plans oracle hname hoccurrence] at hfind
  obtain ⟨c, hc, -⟩ := Option.bind_eq_some_iff.1 hfind
  exact ⟨c, hc⟩

/-- Then its plan is carried out. -/
theorem apply_of_found {x : Extraction} (hname : s.declared.symbol.name = x.vector)
    (hoccurrence : s.occurrence = x.occurrence) {c : Constituent} {plan : ExtractionPlan}
    (hfound : s.found? ⟨namePrefix, p.declaredTypes, p.version.hasScalarSwizzles⟩ x = some c)
    (h : s.Plans ⟨namePrefix, p.declaredTypes, p.version.hasScalarSwizzles⟩ c plan) :
    x.apply p namePrefix = plan.apply p := by
  have hfind := s.find?_plans p.declaredTypes hname hoccurrence
  rw [hfound, Option.bind_some, (s.plan?_eq_some _ c).2 h] at hfind
  rw [Extraction.apply, Extraction.applyBy, hfind]

end Sighting

/-! ## One extraction after another -/

namespace Sighting

variable {namePrefix : String} {p p' : Program} {s : Sighting namePrefix p.walk}
  {s' : Sighting namePrefix p'.walk} {rules : MergeRules} {c c₀ c₁ c₂ : Constituent}
  {plan plan₁ plan₂ : ExtractionPlan} {name : String} {R : ScopeTree → ScopeTree → Prop}
  {move : Symbol → Symbol}

/-- What a plan for `c₀` leaves: the program has one more declaration, if any,
in front of the vector, which is sighted again, and a name keeps what it is to
the vector. Plans are told by what is visited, as before. -/
structure Endures (s : Sighting namePrefix p.walk) (plan : ExtractionPlan) (c₀ : Constituent)
    (name : String) (s' : Sighting namePrefix p'.walk) (R : ScopeTree → ScopeTree → Prop)
    (move : Symbol → Symbol) : Prop where
  applied : plan.apply p = .ok p'
  version : p'.version = p.version
  grows : p'.declared.length = p.declared.length + plan.insertBefore.toList.length
  placed : (p.rewrite plan.replacement).Placed (.bare c₀.name (c₀.type s.packing.elem))
    plan.insertBefore p'
  location : s'.declared.location = s.declared.location.pushedBy plan.insertBefore
  succeeds : s.Succeeds s' plan.replacement c₀.name R
  keeps : s.Keeps s' name R move
  uniform : ∀ (rules' : MergeRules) (c : Constituent) (plan' : ExtractionPlan),
    s'.Plans rules' c plan' → plan'.replacement.Uniform (s.standIn rules'.scalarSwizzles c)
      (p.rewrite plan.replacement).visits

theorem Plans.exists_endures (h : s.Plans rules c₀ plan) (hc₀ : c₀ ∈ s.packing.constituents)
    (hne : name ≠ c₀.name) :
    ∃ (p' : Program) (s' : Sighting namePrefix p'.walk) (R : ScopeTree → ScopeTree → Prop)
      (move : Symbol → Symbol), s.Endures plan c₀ name s' R move := by
  obtain ⟨p', ha, happlied⟩ := h.exists_applied
  cases happlied with
  | reuse _ hi =>
    obtain ⟨s', S, hd, hpacking, hafter⟩ := h.exists_rewritten
    refine ⟨_, s', _, id, ha, rfl, ?_, ?_, ?_, S, h.keeps_of_reuse hd hpacking hafter hne, ?_⟩
    · rw [Program.declared_rewrite, hi]
      rfl
    · rw [hi]
      exact .nowhere
    · rw [hi, hd]
      rfl
    · intro rules' c plan' h' w hw
      rw [h'.uniform w hw]
      exact standIn_congr (by rw [hd]) hpacking (by rw [hd]) w.expr
  | insert hi hfree _ I =>
    refine ⟨p', I.sighting, I.Grafts, I.new.symbol.renumber, ha, ?_, ?_, ?_, ?_,
      I.succeeds h hc₀, I.keeps h hne, fun _ _ _ => I.uniform hc₀⟩
    · exact (Program.version_putBefore I.put).trans rfl
    · have hrest := (I.declared_matches hfree hc₀).length_eq
      rw [hi, I.declared_eq, hrest]
      simp [Inserted.rest, Nat.add_assoc]
    · rw [hi]
      exact .before _ I.group p' I.put
    · rw [hi]
      exact I.location_sighting

/-- The same constituent is found again. -/
theorem Endures.found?_eq (E : s.Endures plan c₀ c₂.name s' R move)
    (hc₀ : c₀ ∈ s.packing.constituents) (hne : c₂.name ≠ c₀.name)
    (h : s.Plans ⟨namePrefix, p.declaredTypes, p.version.hasScalarSwizzles⟩ c₀ plan)
    (h₂ : s.Plans ⟨namePrefix, p.declaredTypes, p.version.hasScalarSwizzles⟩ c₂ plan₂) :
    s'.found? ⟨namePrefix, p'.declaredTypes, p'.version.hasScalarSwizzles⟩ (s.extraction c₂) =
      s.found? ⟨namePrefix, p.declaredTypes, p.version.hasScalarSwizzles⟩ (s.extraction c₂) := by
  have S := E.succeeds
  have hextraction : ∀ c, s'.extraction c = s.extraction c := fun c => by
    rw [extraction, extraction, S.name, S.packing, S.occurrence]
  unfold found?
  rw [S.packing]
  refine List.find?_congr fun c hc => ?_
  rw [hextraction]
  by_cases hx : s.extraction c = s.extraction c₂
  · have hname : c.name = c₂.name := congrArg (·.component) hx
    have K : s.Keeps s' c.name R move := hname ▸ E.keeps
    have hmeets : c.meets c₀ = false := s.not_meets hc hc₀ fun heq => hne (hname ▸ congrArg _ heq)
    have hiff := K.plan?_isSome_iff S h hc₀ hmeets h₂ hname
      (s.typed_of_declaredTypes c p.version.hasScalarSwizzles)
      (s'.typed_of_declaredTypes c p'.version.hasScalarSwizzles)
    rw [Bool.eq_iff_iff.2 hiff]
  · rw [beq_eq_false_iff_ne.2 hx, Bool.and_false, Bool.and_false]

/-- One constituent is taken out, and then another one: its accesses are
replaced by `r`. -/
structure InTurn (s : Sighting namePrefix p.walk) (plan₁ plan₂ : ExtractionPlan)
    (c₁ c₂ : Constituent) (r : Replacement) (p₁ p₁₂ : Program) : Prop where
  applied : plan₁.apply p = .ok p₁
  grows : p₁.declared.length = p.declared.length + plan₁.insertBefore.toList.length
  reported : s.extraction c₂ ∈ p₁.extractions namePrefix
  second : (s.extraction c₂).apply p₁ namePrefix = .ok p₁₂
  uniform : r.Uniform (s.standIn p.version.hasScalarSwizzles c₂)
    (p.rewrite plan₁.replacement).visits
  placed : ((p.rewrite plan₁.replacement).rewrite r).Placed
    (.bare c₁.name (c₁.type s.packing.elem)) plan₁.insertBefore (p₁.rewrite r)
  placed₂ : (p₁.rewrite r).Placed (.bare c₂.name (c₂.type s.packing.elem))
    (plan₂.insertBefore.map fun _ => s.declared.location.pushedBy plan₁.insertBefore) p₁₂

theorem Plans.exists_inTurn
    (h₁ : s.Plans ⟨namePrefix, p.declaredTypes, p.version.hasScalarSwizzles⟩ c₁ plan₁)
    (h₂ : s.Plans ⟨namePrefix, p.declaredTypes, p.version.hasScalarSwizzles⟩ c₂ plan₂)
    (hc₁ : c₁ ∈ s.packing.constituents) (hne : c₂.name ≠ c₁.name)
    (hfound : s.found? ⟨namePrefix, p.declaredTypes, p.version.hasScalarSwizzles⟩
      (s.extraction c₂) = some c₂) :
    ∃ (r : Replacement) (p₁ p₁₂ : Program), s.InTurn plan₁ plan₂ c₁ c₂ r p₁ p₁₂ := by
  obtain ⟨p₁, s₁, R, move, E⟩ := h₁.exists_endures hc₁ hne
  have S := E.succeeds
  have hfound₁ := (E.found?_eq hc₁ hne h₁ h₂).trans hfound
  obtain ⟨hc₂, hsame, plan, h⟩ := s₁.found?_eq_some hfound₁
  obtain ⟨p₁₂, s₁₂, _, _, E₂⟩ := h.exists_endures hc₂ hne.symm
  have happly := s₁.apply_of_found S.name S.occurrence hfound₁ h
  have hplaced := E₂.placed
  rw [E.keeps.insertBefore_eq h₂ h, E.location, S.packing] at hplaced
  have huniform := E.uniform _ c₂ plan h
  rw [E.version] at huniform
  refine ⟨plan.replacement, p₁, p₁₂, E.applied, E.grows, ?_, happly.trans E₂.applied, huniform,
    E.placed.rewrite _, hplaced⟩
  exact List.mem_map.2 ⟨plan, MergeFacts.mem_plans.2 ⟨s₁, c₂, hc₂, h⟩, h.extraction.trans hsame⟩

end Sighting

namespace Extraction

variable {p : Program} {namePrefix : String} {x y : Extraction}

/-- Extractions from one vector commute. Each of two extractions that take out
constituents of different names is still reported when the other one has been
applied, and can be applied then. In either order the program is the same, but
for one case: when each of them brings in a declaration, the two stand next to
each other, right before the group of the vector, and the first one that came
in stands first. -/
theorem apply_comm (hx : x ∈ p.extractions namePrefix) (hy : y ∈ p.extractions namePrefix)
    (hvector : y.vector = x.vector) (hoccurrence : y.occurrence = x.occurrence)
    (hne : y.component ≠ x.component) :
    ∃ px py pxy pyx, x.apply p namePrefix = .ok px ∧ y.apply p namePrefix = .ok py ∧
      y ∈ px.extractions namePrefix ∧ x ∈ py.extractions namePrefix ∧
      y.apply px namePrefix = .ok pxy ∧ x.apply py namePrefix = .ok pyx ∧
      (pxy = pyx ∧ (px.declared.length = p.declared.length ∨
          py.declared.length = p.declared.length) ∨
        Program.Transposed (.bare x.component x.type) (.bare y.component y.type) pxy pyx ∧
          px.declared.length = p.declared.length + 1 ∧
          py.declared.length = p.declared.length + 1) := by
  obtain ⟨-, -, -, -, s, c, -, hsighted, -⟩ := exists_applied hx
  have hname : s.declared.symbol.name = x.vector := congrArg (·.vector) hsighted
  have hnumber : s.occurrence = x.occurrence := congrArg (·.occurrence) hsighted
  have hname' := hname.trans hvector.symm
  have hnumber' := hnumber.trans hoccurrence.symm
  obtain ⟨c₁, hfound₁⟩ := s.exists_found hx hname hnumber
  obtain ⟨c₂, hfound₂⟩ := s.exists_found hy hname' hnumber'
  obtain ⟨hc₁, rfl, plan₁, h₁⟩ := s.found?_eq_some hfound₁
  obtain ⟨hc₂, rfl, plan₂, h₂⟩ := s.found?_eq_some hfound₂
  have hne : c₂.name ≠ c₁.name := hne
  obtain ⟨r₂, px, pxy, T⟩ := h₁.exists_inTurn h₂ hc₁ hne hfound₂
  obtain ⟨r₁, py, pyx, T'⟩ := h₂.exists_inTurn h₁ hc₂ hne.symm hfound₁
  -- Without what comes in, the two orders leave one program.
  have hcomm : (p.rewrite plan₁.replacement).rewrite r₂ =
      (p.rewrite plan₂.replacement).rewrite r₁ :=
    Program.rewrite_comm h₁.uniform h₂.uniform T'.uniform T.uniform fun _ e =>
      Sighting.substitute_standIn_comm hc₁ hc₂ (fun heq => hne (congrArg _ heq.symm)) e
  refine ⟨px, py, pxy, pyx, (s.apply_of_found hname hnumber hfound₁ h₁).trans T.applied,
    (s.apply_of_found hname' hnumber' hfound₂ h₂).trans T'.applied, T.reported, T'.reported,
    T.second, T'.second, ?_⟩
  have hplace := h₁.insertBefore_cases
  have hplace' := h₂.insertBefore_cases
  have hgrows := T.grows
  have hgrows' := T'.grows
  refine (Program.Placed.either_order hplace hplace' T.placed T.placed₂
    (hcomm ▸ T'.placed) T'.placed₂).imp ?_ ?_
  · rintro ⟨heq, hnone⟩
    refine ⟨heq, hnone.imp (fun h => ?_) fun h => ?_⟩
    · rw [hgrows, h]
      rfl
    · rw [hgrows', h]
      rfl
  · rintro ⟨htransposed, hsome, hsome'⟩
    refine ⟨htransposed, ?_, ?_⟩
    · rw [hgrows, hplace.resolve_left hsome]
      rfl
    · rw [hgrows', hplace'.resolve_left hsome']
      rfl

/-- The `vec2` beside the float of the merged vector. -/
def mergedPair : Extraction := ⟨"GLF_merged2_0_1_1_1_2_1bc", "c", .vector .float 2, 0⟩

/-- Both of them bring in a declaration. -/
theorem apply_comm_merged :
    mergedFloat ∈ Program.merged.extractions "GLF_merged" ∧
      mergedPair ∈ Program.merged.extractions "GLF_merged" ∧
      mergedPair.component ≠ mergedFloat.component ∧
      ∃ px py pxy pyx, mergedFloat.apply .merged "GLF_merged" = .ok px ∧
        mergedPair.apply .merged "GLF_merged" = .ok py ∧
        mergedPair.apply px "GLF_merged" = .ok pxy ∧
        mergedFloat.apply py "GLF_merged" = .ok pyx ∧
        Program.Transposed (.bare "b" (.scalar .float)) (.bare "c" (.vector .float 2)) pxy pyx := by
  have hx : mergedFloat ∈ Program.merged.extractions "GLF_merged" := by decide +kernel
  have hy : mergedPair ∈ Program.merged.extractions "GLF_merged" := by decide +kernel
  have hne : mergedPair.component ≠ mergedFloat.component := by decide
  have hinserts : ∀ x ∈ [mergedFloat, mergedPair], (x.apply .merged "GLF_merged").toOption.all
      (·.declared.length != Program.merged.declared.length) = true := by decide +kernel
  obtain ⟨px, py, pxy, pyx, hpx, hpy, -, -, hpxy, hpyx, horders⟩ := apply_comm hx hy rfl rfl hne
  have hinserts₁ := hinserts _ (by simp : mergedFloat ∈ _)
  have hinserts₂ := hinserts _ (by simp : mergedPair ∈ _)
  rw [hpx] at hinserts₁
  rw [hpy] at hinserts₂
  refine ⟨hx, hy, hne, px, py, pxy, pyx, hpx, hpy, hpxy, hpyx, ?_⟩
  rcases horders with ⟨-, hpx | hpy⟩ | ⟨htransposed, -⟩
  · exact absurd hpx (bne_iff_ne.1 hinserts₁)
  · exact absurd hpy (bne_iff_ne.1 hinserts₂)
  · exact htransposed

end Extraction

end ShaderMorph
