-- Calls, when a constituent is taken out. Variables and functions share one
-- name space, and where the new variable is in scope its name is not that of a
-- function any more. The scan looks for uses of the name as a variable, and a
-- call is not one. So a function is hidden just when it is called where the new
-- variable comes to be in scope.
import ShaderMorph.Proofs.Extraction.Constants
import ShaderMorph.Proofs.Extraction.Identities

namespace ShaderMorph

/-- The name that an expression calls. -/
def Expr.callee? : Expr → Option String
  | .call callee _ => some callee
  | _ => none

namespace Program

variable (p : Program)

/-- A variable hides a function: it has the name of the function, which is
called where the variable is in scope. -/
structure Hides (d : Declared) : Prop where
  function : ∃ head ∈ p.prototypes, head.name = d.symbol.name
  called : ∃ w ∈ p.visits, w.expr.callee? = some d.symbol.name ∧
    w.scope.binds d.symbol.id = true

/-- Where a variable that is declared before the group of `v` comes to be in
scope: where `v` is in scope, and in the initializers of the group, up to that
of `v`. -/
def InGroupScope (v : Declared) (w : Visit) : Prop :=
  w.scope.binds v.symbol.id = true ∨ ∃ d ∈ p.declared,
    w.around.initializerOf = some d.symbol.id ∧ d.location.precedesInGroup v.location = true

instance (d : Declared) : Decidable (p.Hides d) :=
  decidable_of_iff ((∃ head ∈ p.prototypes, head.name = d.symbol.name) ∧
      ∃ w ∈ p.visits, w.expr.callee? = some d.symbol.name ∧ w.scope.binds d.symbol.id = true)
    ⟨fun h => ⟨h.1, h.2⟩, fun h => ⟨h.1, h.2⟩⟩

instance (v : Declared) (w : Visit) : Decidable (p.InGroupScope v w) :=
  inferInstanceAs (Decidable (_ ∨ ∃ d ∈ p.declared,
    w.around.initializerOf = some d.symbol.id ∧ d.location.precedesInGroup v.location = true))

end Program

/-- What stands in the place of an expression that is visited. -/
def Visit.instead (r : Replacement) (v : Visit) : Expr := (r v.ordinal).getD v.expr

/-! ## When accesses are replaced -/

theorem Expr.callee?_rewrite {r : Replacement} {k : Nat} (h : r k = none) (e : Expr) :
    (e.rewrite r k).callee? = e.callee? := by
  cases e <;> simp [rewrite, h, callee?]

/-- The calls of a name, and those after accesses were replaced. A call that
comes in stands where the access stood. -/
theorem Rewritten.calls {heads : List Prototype} {r : Replacement} {es es' : List Event}
    {vector component : String} (h : Rewritten heads r es es')
    (hr : r.Renames vector component es) (name : String) :
    List.Forall₂ (fun v v' : Visit => v'.scope = v.scope ∧ v'.around = v.around)
      ((Event.visits es).filter fun v => (v.instead r).callee? == some name)
      ((Event.visits es').filter fun v => v.expr.callee? == some name) := by
  induction h with
  | nil => exact .nil
  | declare d _ ih => exact ih hr.of_cons
  | kept v v' hk hp he hs ha _ ih =>
    have ih := ih hr.of_cons
    have hcallee : v'.expr.callee? = (v.instead r).callee? := by
      rw [he, Expr.callee?_rewrite hk, Visit.instead, hk, Option.getD_none]
    rw [Event.visits_cons_visit, Event.visits_cons_visit, List.filter_cons, List.filter_cons,
      hcallee]
    split
    · exact .cons ⟨hs, ha⟩ ih
    · exact ih
  | replaced e new scope around parent parent' k k' hk _ ih =>
    rw [Event.visits_append, Event.visits_append, List.filter_append, List.filter_append]
    refine List.rel_append ?_ (ih hr.of_append)
    obtain ⟨⟨field, rfl⟩, hnew⟩ := hr.access hk
    -- the vector in the access is not replaced itself
    have hvector : r (k + 1) = none := by
      rw [Option.eq_none_iff_forall_ne_some]
      intro other hother
      obtain ⟨⟨_, hmember⟩, -⟩ := hr ⟨.ident vector, k + 1, some k, around, scope⟩
        (List.mem_append_left _ (List.mem_map_of_mem (by simp [Expr.visits]))) other hother
      cases hmember
    cases hnew with
    | ident => simp [Expr.visits, Visit.instead, hk, hvector, Expr.callee?]
    | member field => simp [Expr.visits, Visit.instead, hk, hvector, Expr.callee?]
    | call callee =>
      by_cases hname : callee = name <;>
        simp [Expr.visits, Expr.visitsArgs, Visit.instead, hk, hvector, Expr.callee?, hname]

namespace Sighting

variable {namePrefix : String} {p p' : Program} {s : Sighting namePrefix p.walk}
  {rules : MergeRules} {c : Constituent} {plan : ExtractionPlan}

/-- Where a name is called afterwards, and where something stood before in whose
place the call stands. -/
theorem Plans.calls_iff (h : s.Plans rules c plan) {name : String} :
    (∃ w' ∈ (p.rewrite plan.replacement).visits, w'.expr.callee? = some name ∧
        (p.rewrite plan.replacement).InGroupScope s.declared w') ↔
      ∃ w ∈ p.visits, (w.instead plan.replacement).callee? = some name ∧
        p.InGroupScope s.declared w := by
  have hcalls := (p.walk_rewrite plan.replacement).calls (h.renames fun _ he => he) name
  rw [← Program.visits_eq, ← Program.visits_eq] at hcalls
  have hin : ∀ w w' : Visit, w'.scope = w.scope ∧ w'.around = w.around →
      ((p.rewrite plan.replacement).InGroupScope s.declared w' ↔
        p.InGroupScope s.declared w) := by
    rintro w w' ⟨hscope, haround⟩
    rw [Program.InGroupScope, Program.InGroupScope, Program.declared_rewrite, hscope, haround]
  constructor
  · rintro ⟨w', hw', hcallee, hr⟩
    obtain ⟨w, hw, hsame⟩ :=
      forall₂_right hcalls (List.mem_filter.2 ⟨hw', beq_iff_eq.2 hcallee⟩)
    obtain ⟨hw, hcallee⟩ := List.mem_filter.1 hw
    exact ⟨w, hw, beq_iff_eq.1 hcallee, (hin w w' hsame).1 hr⟩
  · rintro ⟨w, hw, hcallee, hr⟩
    obtain ⟨w', hw', hsame⟩ :=
      forall₂_left hcalls (List.mem_filter.2 ⟨hw, beq_iff_eq.2 hcallee⟩)
    obtain ⟨hw', hcallee⟩ := List.mem_filter.1 hw'
    exact ⟨w', hw', beq_iff_eq.1 hcallee, (hin w w' hsame).2 hr⟩

/-! ## When a declaration comes in -/

namespace Inserted

variable {r : Replacement} (I : s.Inserted c r p')

theorem split : (p.rewrite r).walk =
    (I.enlargement.pre ++ I.enlargement.lead) ++ .declare s.declared :: I.enlargement.after := by
  have hwalk := I.enlargement.walk
  rwa [I.vector_eq] at hwalk

/-- Everything that is part of an initializer and is met in front of the group
belongs to a variable that is declared there. -/
theorem initializer_lt {w : Visit} (hw : .visit w ∈ I.enlargement.pre) {id : Nat}
    (hinit : w.around.initializerOf = some id) : id < I.new.symbol.id := by
  obtain ⟨a, rest, hscript, hpre⟩ := I.front
  rw [hpre] at hw
  obtain ⟨before, m, after, rfl, -, -, rfl⟩ :=
    Program.initializer_command_of_front hscript hw hinit
  have hmem : m.declared (Command.final before .start) ∈ Event.declared I.enlargement.pre := by
    rw [hpre, Command.run_append, Event.mem_declared]
    simp [Command.run, Command.events]
  have hids := Program.declared_id_of_split (I.split.trans (List.append_assoc _ _ _))
  have hid := List.mem_map_of_mem (f := (·.symbol.id)) hmem
  rw [hids, List.mem_range, ← I.enlargement.id_eq] at hid
  exact hid

/-- Nothing that is declared in front of the group is a member of it. -/
theorem apart_of_pre {d : Declared} (hd : .declare d ∈ I.enlargement.pre) :
    d.location.precedesInGroup s.declared.location = false := by
  refine Bool.eq_false_iff.2 fun hgroup => ?_
  have hmoved := Relocation.precedesInGroup (.before s.declared.location) hgroup
  obtain ⟨e', he', hd'⟩ := forall₂_left I.enlargement.pre_moved hd
  have hvector := I.enlargement.vector_moved
  rw [I.vector_eq] at hvector
  cases hd' with
  | declare _ d' _ hlocation =>
    cases hvector with
    | declare _ _ _ hlocation' =>
      rw [← hlocation, ← hlocation'] at hmoved
      exact Bool.false_ne_true
        ((I.enlargement.apart d' (List.mem_append_left _ he')).symm.trans hmoved)

/-- In front of the group the new variable is in scope nowhere. -/
theorem not_inGroupScope_of_pre {w : Visit} (hw : .visit w ∈ I.enlargement.pre) :
    ¬(p.rewrite r).InGroupScope s.declared w := by
  have hbefore : .visit w ∈ I.enlargement.pre ++ I.enlargement.lead := List.mem_append_left _ hw
  rintro (hbinds | ⟨d, hd, hinit, hprecedes⟩)
  · obtain ⟨u, hu, hid⟩ := ScopeTree.binds_iff.1 hbinds
    exact Nat.ne_of_lt (Program.id_lt_of_before I.split hbefore hu) hid
  · have hlt := I.initializer_lt hw hinit
    rcases Program.precedes_before I.split hd hprecedes with rfl | hmet
    · exact Nat.not_le.2 hlt I.new_le
    rcases List.mem_append.1 hmet with hpre | hlead
    · exact Bool.false_ne_true ((I.apart_of_pre hpre).symm.trans hprecedes)
    · exact Nat.not_le.2 hlt (I.enlargement.bound d hlead).2.2

/-- In the initializers of the group, up to that of the vector, it is in scope
everywhere. -/
theorem inGroupScope_of_lead {w : Visit} (hw : .visit w ∈ I.enlargement.lead) :
    (p.rewrite r).InGroupScope s.declared w := by
  obtain ⟨d, hd, hinit, hgroup⟩ := I.enlargement.reads w hw
  rw [I.vector_eq] at hd hgroup
  refine Or.inr ⟨d, ?_, hinit, hgroup⟩
  rw [Program.mem_declared, I.split]
  rcases hd with hd | rfl
  · simp [hd]
  · simp

/-- And behind the vector where that is. -/
theorem inGroupScope_iff_of_after {w : Visit} (hw : .visit w ∈ I.enlargement.after) :
    (p.rewrite r).InGroupScope s.declared w ↔ w.scope.binds I.new.symbol.id = true := by
  have htied := I.enlargement.tied _ hw
  rw [I.vector_eq] at htied
  rw [new, show w.scope.binds I.enlargement.new.symbol.id = _ from htied]
  refine or_iff_left ?_
  rintro ⟨d, hd, hinit, hgroup⟩
  have hvisit : w ∈ (p.rewrite r).visits := by
    rw [Program.mem_visits, I.split]
    simp [hw]
  exact Program.visit_notMem_of_before I.split
    (Program.initializer_before_group I.split hvisit hd hinit (Or.inr hgroup)) hw

/-- Of all that is visited, the new variable is in scope where it was said to
come to be. -/
theorem visits_inGroupScope :
    List.Forall₂ (fun w w' : Visit => w'.expr = w.expr ∧
        (w'.scope.binds I.new.symbol.id = true ↔ (p.rewrite r).InGroupScope s.declared w))
      (p.rewrite r).visits p'.visits := by
  have hsegment : ∀ {has : ScopeTree → Prop} {es es' : List Event},
      List.Forall₂ (Event.Moved (.before s.declared.location) I.new.symbol has) es es' →
      (∀ w, .visit w ∈ es → ((p.rewrite r).InGroupScope s.declared w ↔ has w.scope)) →
      List.Forall₂ (fun w w' : Visit => w'.expr = w.expr ∧
          (w'.scope.binds I.new.symbol.id = true ↔ (p.rewrite r).InGroupScope s.declared w))
        (Event.visits es) (Event.visits es') := by
    intro has es es' hmoved hin
    refine (forall₂_mem (Event.visits_moved hmoved)).imp ?_
    rintro w w' ⟨hw, -, hexpr, hg⟩
    exact ⟨hexpr, hg.gained.trans (hin w (Event.mem_visits.1 hw)).symm⟩
  have hvisits : (p.rewrite r).visits = Event.visits I.enlargement.pre ++
      (Event.visits I.enlargement.lead ++ Event.visits I.enlargement.after) := by
    rw [Program.visits_eq, congrArg Event.visits I.split]
    simp
  have hvisits' : p'.visits = Event.visits I.enlargement.pre' ++
      (Event.visits I.enlargement.lead' ++ Event.visits I.enlargement.after') := by
    rw [Program.visits_eq, congrArg Event.visits I.enlargement.walk']
    simp
  rw [hvisits, hvisits']
  refine List.rel_append ?_ (List.rel_append ?_ ?_)
  · exact hsegment I.enlargement.pre_moved fun w hw =>
      iff_false_intro (I.not_inGroupScope_of_pre hw)
  · exact hsegment I.enlargement.lead_moved fun w hw =>
      iff_true_intro (I.inGroupScope_of_lead hw)
  · exact hsegment I.enlargement.after_moved fun w hw => I.inGroupScope_iff_of_after hw

/-- The new variable hides a function just when its name is called, or comes to
be called, where it comes to be in scope. -/
theorem hides_iff (I : s.Inserted c plan.replacement p') (h : s.Plans rules c plan) :
    p'.Hides I.new ↔ (∃ head ∈ p.prototypes, head.name = c.name) ∧
      ∃ w ∈ p.visits, (w.instead plan.replacement).callee? = some c.name ∧
        p.InGroupScope s.declared w := by
  have hname : I.new.symbol.name = c.name := I.name_eq
  have hheads : p'.prototypes = p.prototypes :=
    (Program.prototypes_putBefore I.put).trans (p.prototypes_rewrite plan.replacement)
  have hcalled : (∃ w ∈ p'.visits, w.expr.callee? = some c.name ∧
        w.scope.binds I.new.symbol.id = true) ↔
      ∃ w ∈ (p.rewrite plan.replacement).visits, w.expr.callee? = some c.name ∧
        (p.rewrite plan.replacement).InGroupScope s.declared w := by
    constructor
    · rintro ⟨w', hw', hcallee, hbinds⟩
      obtain ⟨w, hw, hexpr, hin⟩ := forall₂_right I.visits_inGroupScope hw'
      exact ⟨w, hw, hexpr ▸ hcallee, hin.1 hbinds⟩
    · rintro ⟨w, hw, hcallee, hr⟩
      obtain ⟨w', hw', hexpr, hin⟩ := forall₂_left I.visits_inGroupScope hw
      exact ⟨w', hw', hexpr ▸ hcallee, hin.2 hr⟩
  rw [← h.calls_iff, ← hcalled, ← hheads, ← hname]
  exact ⟨fun hides => ⟨hides.function, hides.called⟩, fun hides => ⟨hides.1, hides.2⟩⟩

end Inserted

end Sighting

/-! ## Taking out what was reported -/

namespace Extraction

/-- Taking out what was reported, when a declaration comes in for it, hides a
function just when one has the name of the constituent and that name is called
where the new variable comes to be in scope: in an expression of the program, or
in one that comes in for an access. So no function is hidden when none has the
name, or none is called there. -/
theorem applyBy_hides_iff {p : Program} {namePrefix : String} {oracle : TypeOracle}
    {x : Extraction} (h : x ∈ p.extractionsBy namePrefix oracle) :
    ∃ plan p', (p.extractionPlans namePrefix oracle).find? (·.extraction == x) = some plan ∧
      x.applyBy p namePrefix oracle = .ok p' ∧
      ∀ location, plan.insertBefore = some location →
        ∃ new, p.Gains (some new) p' ∧ new.symbol.name = x.component ∧
          ∃ v ∈ p.declared, v.location = location ∧ v.symbol.name = x.vector ∧
            (p'.Hides new ↔ (∃ head ∈ p.prototypes, head.name = x.component) ∧
              ∃ w ∈ p.visits, (w.instead plan.replacement).callee? = some x.component ∧
                p.InGroupScope v w) := by
  obtain ⟨plan, p', hfind, happly, s, c, hc, rfl, hs, happlied⟩ := exists_applied h
  refine ⟨plan, p', hfind, happly, fun location hlocation => ?_⟩
  cases happlied with
  | reuse d hi =>
    rw [hi] at hlocation
    cases hlocation
  | insert hi hfree hl I =>
    obtain rfl := Option.some.inj (hi.symm.trans hlocation)
    exact ⟨I.new, I.gains hfree hc, I.name_eq, s.declared, s.declared_mem, rfl, rfl,
      I.hides_iff hs⟩

end Extraction

/-- A merged vector of two floats, the first one named like a function, which is
called by another one. The float is given a value. -/
def Program.mergedBesideFunction (value : Expr) : Program :=
  let name := "GLF_merged2_0_1_1_1_1_1ab"
  ⟨.essl300, [
    .define (.scalar .float) "a" [] [.ret (some (.float (.ofNatural 1)))],
    .define (.scalar .float) "f" [] [.ret (some (.call "a" []))],
    .define .void "main" [] [.declare (.vector .float 2) name,
      .expr (.assign (.member (.ident name) "x") value)]]⟩

/-- The function is called in front of the vector only. -/
def Program.calledInFront : Program := mergedBesideFunction (.float (.ofNatural 2))

/-- The float is given what the function returns. -/
def Program.calledBehind : Program := mergedBesideFunction (.call "a" [])

namespace Extraction

theorem applyBy_hides_iff_front :
    firstFloat ∈ Program.calledInFront.extractionsBy "GLF_merged"
        Program.calledInFront.declaredTypes ∧
      ∃ p' new, firstFloat.applyBy .calledInFront "GLF_merged"
          Program.calledInFront.declaredTypes = .ok p' ∧
        Program.calledInFront.Gains (some new) p' ∧ ¬p'.Hides new := by
  have hx : firstFloat ∈ Program.calledInFront.extractionsBy "GLF_merged"
      Program.calledInFront.declaredTypes := by decide +kernel
  have hplan : ∀ plan ∈ (Program.calledInFront.extractionPlans "GLF_merged"
      Program.calledInFront.declaredTypes).find? (·.extraction == firstFloat),
      plan.insertBefore.isSome ∧ ∀ w ∈ Program.calledInFront.visits,
        (w.instead plan.replacement).callee? = some firstFloat.component →
          ∀ v ∈ Program.calledInFront.declared, v.symbol.name = firstFloat.vector →
            ¬Program.calledInFront.InGroupScope v w := by decide +kernel
  obtain ⟨plan, p', hfind, happly, hnew⟩ := applyBy_hides_iff hx
  obtain ⟨hinserts, hcalls⟩ := hplan plan hfind
  obtain ⟨location, hlocation⟩ := Option.isSome_iff_exists.1 hinserts
  obtain ⟨new, hgains, -, v, hv, -, hvector, hiff⟩ := hnew location hlocation
  refine ⟨hx, p', new, happly, hgains, fun hides => ?_⟩
  obtain ⟨-, w, hw, hcallee, hin⟩ := hiff.1 hides
  exact hcalls w hw hcallee v hv hvector hin

/-- When the float is given what the function returns, the new variable hides
the function. -/
theorem firstFloat_hides :
    firstFloat ∈ Program.calledBehind.extractions "GLF_merged" ∧
      (∀ d ∈ Program.calledBehind.declared, d.symbol.name ≠ firstFloat.component) ∧
      ∃ p', firstFloat.apply .calledBehind "GLF_merged" = .ok p' ∧
        ∃ new ∈ p'.declared, new.symbol.name = firstFloat.component ∧ p'.Hides new := by
  have hrun : (firstFloat.apply .calledBehind "GLF_merged").toOption.any
      (fun p' => decide (∃ new ∈ p'.declared,
        new.symbol.name = firstFloat.component ∧ p'.Hides new)) = true := by decide +kernel
  refine ⟨by decide +kernel, by decide +kernel, ?_⟩
  cases happly : firstFloat.apply .calledBehind "GLF_merged" with
  | error b =>
    rw [happly] at hrun
    cases hrun
  | ok p' =>
    rw [happly] at hrun
    exact ⟨p', rfl, of_decide_eq_true hrun⟩

end Extraction

end ShaderMorph
