-- Constants, when a constituent is taken out. What comes in is no constant,
-- even where the vector is one. So an access that has to stay constant may
-- come to stand for a variable: it does unless a constant is at hand. When the
-- vector is no constant there is no such access to begin with.
import ShaderMorph.Proofs.Extraction.Names
import ShaderMorph.Proofs.Walk.Alignment
import ShaderMorph.Proofs.Walk.Constants
import ShaderMorph.Shader.Build

namespace ShaderMorph

/-- Every identifier that has to stay constant stands for a constant. -/
def Program.KeepsConstant (p : Program) : Prop :=
  ∀ v ∈ p.identifiers, v.around.constContext = true →
    ∃ d ∈ p.declared, d.isConst = true ∧ v.expr.named? v.scope = some d.symbol

instance (p : Program) : Decidable p.KeepsConstant :=
  inferInstanceAs (Decidable (∀ v ∈ p.identifiers, v.around.constContext = true →
    ∃ d ∈ p.declared, d.isConst = true ∧ v.expr.named? v.scope = some d.symbol))

/-! ## Identifiers that have to stay constant -/

theorem forall₂_and_map {R : α → β → Prop} {f : α → γ} {g : β → γ} {l : List α} {l' : List β}
    (h : List.Forall₂ R l l') (hmap : l'.map g = l.map f) :
    List.Forall₂ (fun a b => R a b ∧ g b = f a) l l' := by
  induction h with
  | nil => exact .nil
  | cons hab _ ih =>
    rw [List.map_cons, List.map_cons, List.cons.injEq] at hmap
    exact .cons ⟨hab, hmap.1⟩ (ih hmap.2)

/-- What stands in the place of an access has to stay constant just when the
access had to. -/
theorem Rewritten.identifiers_constContext {heads : List Prototype} {r : Replacement}
    {es es' : List Event} {vector component : String} (h : Rewritten heads r es es')
    (hr : r.Renames vector component es) :
    (Event.identifiers es').map (·.around.constContext) =
      (Event.identifiers es).map (·.around.constContext) := by
  induction h with
  | nil => rfl
  | declare d _ ih => exact ih hr.of_cons
  | kept v v' hk hp he hs ha _ ih =>
    have ih := ih hr.of_cons
    have hname : v'.expr.name? = v.expr.name? := by rw [he, v.expr.name?_rewrite hk]
    rw [Event.identifiers_cons_visit, Event.identifiers_cons_visit, hname]
    split
    · rw [List.map_cons, List.map_cons, ha, ih]
    · exact ih
  | replaced e new scope around parent parent' k k' hk _ ih =>
    rw [Event.identifiers_append, Event.identifiers_append, List.map_append, List.map_append,
      ih hr.of_append]
    obtain ⟨⟨field, rfl⟩, hnew⟩ := hr.access hk
    obtain ⟨v', hv', -, -⟩ := hnew.identifiers heads scope around parent' k'
    have hmem : v' ∈ new.visits heads scope around parent' k' := by
      have hv := Event.mem_identifiers (hv' ▸ List.mem_singleton_self v')
      simpa using hv
    have hread := (new.visits_beside heads scope around parent' k' v' hmem).2
    have hconst : v'.around.constContext = around.constContext := congrArg (·.constContext) hread
    rw [hv', List.map_singleton, hconst]
    rfl

namespace Program

variable {p p' : Program}

theorem identifiers_demand (p : Program) :
    p.identifiers.map (·.around.constContext) =
      ((p.visits.map Visit.demand).filter (·.1.name?.isSome)).map (·.2) := by
  rw [List.filter_map, List.map_map]
  rfl

theorem PutBefore.identifiers_constContext {name : String} {type : DataType} {g : VariableGroup}
    {location : DeclLocation} (h : p.PutBefore (.bare name type) g location p') :
    p'.identifiers.map (·.around.constContext) = p.identifiers.map (·.around.constContext) := by
  rw [identifiers_demand, identifiers_demand, h.demands_eq]

/-- The symbol of a declaration turns into that of the matching one. -/
theorem exists_matches {ds : List Declared} (hds : List.Forall₂ Declared.Matches p.declared ds)
    {d : Declared} (hd : d ∈ p.declared) {u : Symbol} (h : d.symbol.Matched p.declared ds u) :
    ∃ d' ∈ ds, d'.symbol = u ∧ d.Matches d' := by
  obtain ⟨i, e, e', he, he', hsymbol, rfl⟩ := h
  obtain rfl := declared_ext (List.mem_of_getElem? he) hd (congrArg (·.id) hsymbol)
  obtain ⟨hi, rfl⟩ := List.getElem?_eq_some_iff.1 he
  obtain ⟨hi', rfl⟩ := List.getElem?_eq_some_iff.1 he'
  exact ⟨_, List.getElem_mem hi', rfl, (List.forall₂_iff_get.1 hds).2 i hi hi'⟩

/-- When the identifiers go on to stand for what they stood for, and those in
replaced accesses come to stand for `target`, then all hangs on whether that is
a constant. -/
theorem keepsConstant_iff {vector component : String} {r : Replacement} {ds : List Declared}
    {target : Declared} (hp : p.KeepsConstant) (hds : List.Forall₂ Declared.Matches p.declared ds)
    (hsub : ∀ d ∈ ds, d ∈ p'.declared) (htarget : target ∈ p'.declared)
    (hcarried : List.Forall₂ (fun v v' =>
      v.Carried vector component r p.declared ds target.symbol v' ∧
        v'.around.constContext = v.around.constContext) p.identifiers p'.identifiers) :
    p'.KeepsConstant ↔ ∀ v ∈ p.identifiers, ∀ k, v.parent = some k → (r k).isSome →
      v.around.constContext = true → target.isConst = true := by
  constructor
  · intro hp' v hv k hk hsome hconst
    obtain ⟨v', hv', hbecame, hflag⟩ := forall₂_left hcarried hv
    cases hbecame with
    | kept name _ _ hl =>
      rw [hl.2 k hk] at hsome
      cases hsome
    | access j _ hexpr' _ _ hlookup =>
      obtain ⟨d, hd, hdconst, hnamed⟩ := hp' v' hv' (hflag.trans hconst)
      rw [hexpr'] at hnamed
      obtain rfl := declared_ext hd htarget
        (congrArg (·.id) (Option.some.inj (hnamed.symm.trans hlookup)))
      exact hdconst
  · intro hall v' hv' hconst'
    obtain ⟨v, hv, hbecame, hflag⟩ := forall₂_right hcarried hv'
    have hconst := hflag.symm.trans hconst'
    cases hbecame with
    | kept name hexpr hexpr' _ hlookup =>
      obtain ⟨d, hd, hdconst, hnamed⟩ := hp v hv hconst
      rw [hexpr] at hnamed
      obtain ⟨u', hmatched, hlookup'⟩ := hlookup _ hnamed
      obtain ⟨d', hd', rfl, hmatches⟩ := exists_matches hds hd hmatched
      refine ⟨d', hsub d' hd', hmatches.isConst.trans hdconst, ?_⟩
      rw [hexpr']
      exact hlookup'
    | access k _ hexpr' hk hsome hlookup =>
      refine ⟨target, htarget, hall v hv k hk hsome hconst, ?_⟩
      rw [hexpr']
      exact hlookup

end Program

/-! ## Carrying out a plan -/

namespace Sighting

variable {namePrefix : String} {p p' : Program} {s : Sighting namePrefix p.walk}
  {rules : MergeRules} {c : Constituent} {plan : ExtractionPlan}

namespace Plans

theorem identifiers_constContext (h : s.Plans rules c plan) :
    (p.rewrite plan.replacement).identifiers.map (·.around.constContext) =
      p.identifiers.map (·.around.constContext) := by
  rw [Program.identifiers_eq, Program.identifiers_eq]
  exact (p.walk_rewrite plan.replacement).identifiers_constContext (h.renames fun _ he => he)

/-- The name of the vector in an access has to stay constant just when the
access has to. -/
theorem forall_identifiers_iff (h : s.Plans rules c plan) {P : Prop} :
    (∀ v ∈ p.identifiers, ∀ k, v.parent = some k → (plan.replacement k).isSome →
        v.around.constContext = true → P) ↔
      (∀ v ∈ p.visits, (plan.replacement v.ordinal).isSome → v.around.constContext = false) ∨
        P := by
  constructor
  · intro hall
    refine or_iff_not_imp_right.2 fun hP v hv hsome => Bool.eq_false_iff.2 fun hconst => hP ?_
    obtain ⟨new, hnew⟩ := Option.isSome_iff_exists.1 hsome
    obtain ⟨swizzle, hp, -⟩ := (h.replacement_ordinal_eq_some hv).1 hnew
    obtain ⟨field, hexpr, -⟩ := hp.expr
    -- the access is not an identifier itself, but the vector that it picks from is
    let base : Visit := ⟨.ident s.declared.symbol.name, v.ordinal + 1, some v.ordinal, v.around,
      v.scope⟩
    have hparts : base ∈ v.parts p.prototypes := by
      simp [Visit.parts, hexpr, Expr.visits, base]
    have hwalk := Program.walk_stretch (Program.mem_visits.1 hv)
    have hbase : base ∈ p.visits :=
      Program.mem_visits.2 (hwalk.subset (List.mem_map_of_mem hparts))
    exact hall base (List.mem_filter.2 ⟨hbase, rfl⟩) v.ordinal rfl hsome hconst
  · rintro (hnone | hP) v hv k hk hsome hconst
    · obtain ⟨new, hnew⟩ := Option.isSome_iff_exists.1 hsome
      obtain ⟨w, hw, rfl, -⟩ := h.replacement_eq_some.1 hnew
      have hsame := Program.constContext_of_parent (List.mem_filter.1 hv).1 hw hk
      exact absurd ((hnone w hw hsome).symm.trans (hsame.symm.trans hconst)) Bool.false_ne_true
    · exact hP

/-- No access has to stay constant when the vector is no constant. -/
theorem constContext_eq_false (h : s.Plans rules c plan) (hp : p.KeepsConstant)
    (hs : s.declared.isConst = false) :
    ∀ v ∈ p.visits, (plan.replacement v.ordinal).isSome → v.around.constContext = false := by
  refine ((h.forall_identifiers_iff (P := False)).1 ?_).resolve_right id
  intro v hv k hk hsome hconst
  obtain ⟨new, hnew⟩ := Option.isSome_iff_exists.1 hsome
  obtain ⟨hexpr, w, -, -, hscope, swizzle, hpicks⟩ := h.parent_eq (List.mem_filter.1 hv).1 hk hnew
  obtain ⟨d, hd, hdconst, hnamed⟩ := hp v hv hconst
  rw [hexpr, ← hscope] at hnamed
  obtain rfl := Program.declared_ext hd s.declared_mem
    (congrArg (·.id) (Option.some.inj (hnamed.symm.trans hpicks.means)))
  exact Bool.false_ne_true (hs.symm.trans hdconst)

/-- With a declaration at hand, constants are kept when that is one. -/
theorem keepsConstant_of_reuse (h : s.Plans rules c plan) (hp : p.KeepsConstant) {d : Declared}
    (hd : d ∈ p.declared) (hall : ∀ a ∈ s.accesses rules c, a.2 = .sameFrame d.symbol.id) :
    (p.rewrite plan.replacement).KeepsConstant ↔
      (∀ v ∈ p.visits, (plan.replacement v.ordinal).isSome → v.around.constContext = false) ∨
        d.isConst = true := by
  have hdeclared := p.declared_rewrite plan.replacement
  rw [← h.forall_identifiers_iff]
  refine Program.keepsConstant_iff hp (List.forall₂_same.2 fun e _ => .refl e) ?_ ?_
    (forall₂_and_map (h.identifiers_carried hd hall) h.identifiers_constContext)
  · rw [hdeclared]
    exact fun _ he => he
  · rwa [hdeclared]

end Plans

namespace Inserted

/-- What comes in is no constant. -/
theorem new_isConst (I : s.Inserted c plan.replacement p') (hfree : s.Free rules c)
    (hc : c ∈ s.packing.constituents) : I.new.isConst = false := by
  have hrest : I.rest.map (·.isConst) = p.declared.map (·.isConst) := by
    rw [← List.forall₂_eq_eq_eq, List.forall₂_map_left_iff, List.forall₂_map_right_iff]
    exact (I.declared_matches hfree hc).flip.imp fun _ _ hm => hm.2.isConst
  have hcount : I.rest.countP (·.isConst) = p.declared.countP (·.isConst) := by
    have hid := congrArg (List.countP id) hrest
    rwa [List.countP_map, List.countP_map] at hid
  -- the others are as many constants as before, and so are all of them together
  have hput := I.put.countP_isConst
  rw [p.declared_rewrite, ← hcount, I.declared_eq, rest, List.countP_append, List.countP_append,
    List.countP_cons] at hput
  by_contra hconst
  rw [if_pos (Bool.of_not_eq_false hconst)] at hput
  omega

/-- With a new declaration, constants are kept when no access has to stay
constant. -/
theorem keepsConstant_iff (I : s.Inserted c plan.replacement p') (h : s.Plans rules c plan)
    (hfree : s.Free rules c) (hc : c ∈ s.packing.constituents) (hp : p.KeepsConstant) :
    p'.KeepsConstant ↔
      ∀ v ∈ p.visits, (plan.replacement v.ordinal).isSome → v.around.constContext = false := by
  have hflags := I.put.identifiers_constContext.trans h.identifiers_constContext
  rw [Program.keepsConstant_iff hp ((I.declared_matches hfree hc).imp fun _ _ hm => hm.2) ?_
    I.new_mem (forall₂_and_map (I.identifiers_carried h hfree hc) hflags),
    h.forall_identifiers_iff, I.new_isConst hfree hc]
  · simp
  · intro d hd
    rw [I.declared_eq]
    simp only [rest, List.mem_append, List.mem_cons] at hd ⊢
    tauto

end Inserted

end Sighting

/-! ## Taking out what was reported -/

namespace Extraction

/-- Taking out what was reported keeps constants just when none of the replaced
accesses has to stay constant, or the declaration at hand is that of a constant.
In particular it does when the vector is no constant. -/
theorem applyBy_keepsConstant_iff {p : Program} {namePrefix : String} {oracle : TypeOracle}
    {x : Extraction} (h : x ∈ p.extractionsBy namePrefix oracle) (hp : p.KeepsConstant) :
    ∃ plan p', (p.extractionPlans namePrefix oracle).find? (·.extraction == x) = some plan ∧
      x.applyBy p namePrefix oracle = .ok p' ∧
      ∃ s : Sighting namePrefix p.walk, ∃ c ∈ s.packing.constituents, s.extraction c = x ∧
        (p'.KeepsConstant ↔
          (∀ v ∈ p.visits, (plan.replacement v.ordinal).isSome →
              v.around.constContext = false) ∨
            plan.insertBefore = none ∧
              ∃ d ∈ p.declared, d.isConst = true ∧ s.frameSymbols c = [d.symbol]) ∧
        (s.declared.isConst = false → p'.KeepsConstant) := by
  obtain ⟨plan, p', hfind, happly, s, c, hc, rfl, hs, happlied⟩ := exists_applied h
  refine ⟨plan, p', hfind, happly, s, c, hc, rfl, ?_⟩
  cases happlied with
  | reuse d hi hd hu htype hall =>
    have hkeeps := hs.keepsConstant_of_reuse hp hd hall
    refine ⟨hkeeps.trans (or_congr_right ?_), fun hconst =>
      hkeeps.2 (Or.inl (hs.constContext_eq_false hp hconst))⟩
    constructor
    · exact fun hconst => ⟨hi, d, hd, hconst, hu⟩
    · rintro ⟨-, e, he, hconst, hsymbol⟩
      rw [hu, List.singleton_inj] at hsymbol
      obtain rfl := Program.declared_ext hd he (congrArg (·.id) hsymbol)
      exact hconst
  | insert hi hfree hl I =>
    have hkeeps := I.keepsConstant_iff hs hfree hc hp
    refine ⟨hkeeps.trans ?_, fun hconst => hkeeps.2 (hs.constContext_eq_false hp hconst)⟩
    rw [hi]
    simp

end Extraction

/-- A merged vector of two floats, of which the first one is read, and behind it
a constant that is given the value of another one. -/
def Program.mergedVariable : Program :=
  let name := "GLF_merged2_0_1_1_1_1_1ab"
  let constant (name : String) (value : Expr) : Stmt :=
    .decl ⟨[.const], .scalar .float, [.initialized name value]⟩
  ⟨.essl300, [.define .void "main" [] [.declare (.vector .float 2) name,
    constant "k" (.float (.ofNatural 1)), constant "m" (.ident "k"),
    .expr (.member (.ident name) "x")]]⟩

/-- Such a vector that is a constant, and behind it one that is given the value
of its first float. -/
def Program.mergedConstant : Program :=
  let name := "GLF_merged2_0_1_1_1_1_1ab"
  let pair := Expr.call "vec2" [.float (.ofNatural 1), .float (.ofNatural 2)]
  ⟨.essl300, [.define .void "main" [] [
    .decl ⟨[.const], .vector .float 2, [.initialized name pair]⟩,
    .decl ⟨[.const], .scalar .float, [.initialized "k" (.member (.ident name) "x")]⟩]]⟩

namespace Extraction

/-- The first float of both vectors. -/
def firstFloat : Extraction := ⟨"GLF_merged2_0_1_1_1_1_1ab", "a", .scalar .float, 0⟩

theorem applyBy_keepsConstant_iff_variable :
    firstFloat ∈ Program.mergedVariable.extractionsBy "GLF_merged"
        Program.mergedVariable.declaredTypes ∧
      Program.mergedVariable.KeepsConstant ∧
      ∃ p', firstFloat.applyBy .mergedVariable "GLF_merged"
          Program.mergedVariable.declaredTypes = .ok p' ∧ p'.KeepsConstant := by
  have hx : firstFloat ∈ Program.mergedVariable.extractionsBy "GLF_merged"
      Program.mergedVariable.declaredTypes := by decide +kernel
  have hp : Program.mergedVariable.KeepsConstant := by decide +kernel
  obtain ⟨-, p', -, happly, s, c, hc, hs, -, hkeeps⟩ := applyBy_keepsConstant_iff hx hp
  have hvector : ∀ d ∈ Program.mergedVariable.declared, d.symbol.name = firstFloat.vector →
      d.isConst = false := by decide +kernel
  exact ⟨hx, hp, p', happly, hkeeps (hvector _ s.declared_mem (congrArg (·.vector) hs))⟩

/-- When the first float of the constant is taken out, the other constant is
given the value of a variable. -/
theorem firstFloat_variable :
    Program.mergedConstant.KeepsConstant ∧
      firstFloat ∈ Program.mergedConstant.extractions "GLF_merged" ∧
      ∃ p', firstFloat.apply .mergedConstant "GLF_merged" = .ok p' ∧ ¬p'.KeepsConstant := by
  have hrun : (firstFloat.apply .mergedConstant "GLF_merged").toOption.any
      (fun p' => decide ¬p'.KeepsConstant) = true := by decide +kernel
  refine ⟨by decide +kernel, by decide +kernel, ?_⟩
  cases happly : firstFloat.apply .mergedConstant "GLF_merged" with
  | error b =>
    rw [happly] at hrun
    cases hrun
  | ok p' =>
    rw [happly] at hrun
    exact ⟨p', rfl, of_decide_eq_true hrun⟩

end Extraction

end ShaderMorph
