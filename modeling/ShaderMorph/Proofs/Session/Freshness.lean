-- What a session applies is fresh. A mutation point is found again by its
-- number and its expression, which is the same as itself unless there is a
-- literal in it that is not a number, and no step brings in such a literal.
-- An extraction is found again by a scan under the settings of the session,
-- and so it is stale, in the very program that it was found in, when its
-- finder goes by another start of merged names and that scan misses it.
import ShaderMorph.Proofs.Extraction.Measure
import ShaderMorph.Proofs.Mutation.Wrapping
import ShaderMorph.Proofs.Walk.Alignment

namespace ShaderMorph

/-! ## Programs of numbers -/

/-- Whether an expression is a literal that is not a number. -/
def Expr.isNaN : Expr → Bool
  | .literal (.float x) => x.isNaN
  | _ => false

/-- All literals of a program are numbers. -/
def Program.NaNFree (p : Program) : Prop := ∀ e ∈ p.exprs, e.isNaN = false

namespace Expr

mutual

/-- An expression is the same as itself when all its literals are numbers. -/
theorem same_self : (e : Expr) → (∀ x ∈ e.preorder, x.isNaN = false) → e.same e = true
  | .ident _, _ => by simp [same]
  | .literal (.float x), h => by
    have hx : x.isNaN = false := h (.literal (.float x)) (by simp [preorder])
    rw [same, sameLiteral, Binary64.sameNumber_self hx]
  | .literal (.bool _), _ => by simp [same, sameLiteral]
  | .literal (.int _), _ => by simp [same, sameLiteral]
  | .literal (.uint _), _ => by simp [same, sameLiteral]
  | .binary _ lhs rhs, h => by
    simp only [preorder, List.forall_mem_cons, List.forall_mem_append] at h
    simp [same, same_self lhs h.2.1, same_self rhs h.2.2]
  | .unary _ operand, h => by
    simp only [preorder, List.forall_mem_cons] at h
    simp [same, same_self operand h.2]
  | .member base _, h => by
    simp only [preorder, List.forall_mem_cons] at h
    simp [same, same_self base h.2]
  | .index base position, h => by
    simp only [preorder, List.forall_mem_cons, List.forall_mem_append] at h
    simp [same, same_self base h.2.1, same_self position h.2.2]
  | .call _ args, h => by
    simp only [preorder, List.forall_mem_cons] at h
    simp [same, sameAll_self args h.2]
  | .ternary cond thenExpr elseExpr, h => by
    simp only [preorder, List.forall_mem_cons, List.forall_mem_append] at h
    simp [same, same_self cond h.2.1.1, same_self thenExpr h.2.1.2, same_self elseExpr h.2.2]
  | .paren inner, h => by
    simp only [preorder, List.forall_mem_cons] at h
    simp [same, same_self inner h.2]

theorem sameAll_self : (es : List Expr) → (∀ x ∈ preorderAll es, x.isNaN = false) →
    sameAll es es = true
  | [], _ => rfl
  | e :: es, h => by
    simp only [preorderAll, List.forall_mem_append] at h
    simp [sameAll, same_self e h.1, sameAll_self es h.2]

end

/-- A literal that is left where it stands was there before. -/
theorem rewrite_eq_literal {r : Replacement} {e : Expr} {k : Nat} (hk : r k = none) {l : Literal}
    (h : e.rewrite r k = .literal l) : e = .literal l := by
  cases e <;> simp_all [rewrite]

theorem exists_literal {e : Expr} (h : e.isNaN = true) : ∃ l, e = .literal l := by
  cases e with
  | literal l => exact ⟨l, rfl⟩
  | _ => cases h

/-- Names are no literals. -/
theorem Names.isNaN {name : String} {e : Expr} (h : e.Names name) :
    ∀ x ∈ e.preorder, x.isNaN = false := by
  cases h <;> simp [preorder, preorderAll, Expr.isNaN]

/-- An identity brings in no literal but zeros, ones and truth values. -/
theorem wrap_isNaN (identity : Identity) (elem : Option ElementKind) {e : Expr}
    (h : ∀ x ∈ e.preorder, x.isNaN = false) :
    ∀ x ∈ (identity.wrap elem e).preorder, x.isNaN = false := by
  have hneutral : ∀ one, (Expr.literal (Identity.neutral elem one)).isNaN = false := by
    intro one
    cases one <;> rcases elem with - | (_ | _ | _ | _) <;> decide
  have hparen : ∀ x ∈ (Expr.paren e).preorder, x.isNaN = false :=
    List.forall_mem_cons.2 ⟨rfl, h⟩
  cases identity with
  | parenthesize => exact hparen
  | addZero =>
    exact List.forall_mem_cons.2 ⟨rfl,
      List.forall_mem_append.2 ⟨hparen, List.forall_mem_singleton.2 (hneutral false)⟩⟩
  | mulOne =>
    exact List.forall_mem_cons.2 ⟨rfl,
      List.forall_mem_append.2 ⟨hparen, List.forall_mem_singleton.2 (hneutral true)⟩⟩
  | doubleNegation =>
    exact List.forall_mem_cons.2 ⟨rfl, List.forall_mem_cons.2 ⟨rfl,
      List.forall_mem_cons.2 ⟨rfl, hparen⟩⟩⟩
  | andTrue =>
    exact List.forall_mem_cons.2 ⟨rfl,
      List.forall_mem_append.2 ⟨List.forall_mem_singleton.2 rfl, hparen⟩⟩

end Expr

/-- What is not a number after a replacement was there before, or is part of
what came in. -/
theorem Rewritten.isNaN {heads : List Prototype} {r : Replacement} {es es' : List Event}
    (h : Rewritten heads r es es') (hes : ∀ v ∈ Event.visits es, v.expr.isNaN = false)
    (hr : ∀ k new, r k = some new → ∀ x ∈ new.preorder, x.isNaN = false) :
    ∀ v ∈ Event.visits es', v.expr.isNaN = false := by
  induction h with
  | nil => exact hes
  | declare d _ ih => exact ih hes
  | kept v v' hk _ he _ _ _ ih =>
    rw [Event.visits_cons_visit, List.forall_mem_cons] at hes ⊢
    refine ⟨?_, ih hes.2⟩
    cases hnan : v'.expr.isNaN with
    | false => rfl
    | true =>
      obtain ⟨l, hl⟩ := Expr.exists_literal hnan
      rw [hl] at he
      rw [Expr.rewrite_eq_literal hk he.symm, ← hl, hnan] at hes
      exact hes.1
  | replaced e new scope around parent parent' k k' hk _ ih =>
    rw [Event.visits_append, Event.visits_map_visit, List.forall_mem_append] at hes ⊢
    refine ⟨fun v hv => hr k new hk v.expr ?_, ih hes.2⟩
    rw [← new.visits_expr heads scope around parent' k']
    exact List.mem_map_of_mem hv

namespace Program

variable {p : Program}

theorem nanFree_iff : p.NaNFree ↔ ∀ v ∈ p.visits, v.expr.isNaN = false := by
  unfold NaNFree
  rw [← visits_expr, List.forall_mem_map]

theorem NaNFree.rewrite (hp : p.NaNFree) {r : Replacement}
    (hr : ∀ k new, r k = some new → ∀ x ∈ new.preorder, x.isNaN = false) :
    (p.rewrite r).NaNFree :=
  nanFree_iff.2 ((p.walk_rewrite r).isNaN (nanFree_iff.1 hp) hr)

/-- No part of what is visited is a literal that is not a number. -/
theorem NaNFree.parts (hp : p.NaNFree) {v : Visit} (hv : v ∈ p.visits) :
    ∀ x ∈ v.expr.preorder, x.isNaN = false := by
  intro x hx
  rw [← v.expr.visits_expr p.prototypes v.scope v.around v.parent v.ordinal] at hx
  obtain ⟨w, hw, rfl⟩ := List.mem_map.1 hx
  have hpart : Event.visit w ∈ (v.parts p.prototypes).map Event.visit := List.mem_map_of_mem hw
  have hmem := (walk_stretch (mem_visits.1 hv)).subset hpart
  exact nanFree_iff.1 hp w (mem_visits.2 hmem)

end Program

/-! ## What a step brings in -/

/-- Wrapping brings in numbers only. -/
theorem Program.Wraps.nanFree {p p' : Program} (h : p.Wraps p') (hp : p.NaNFree) :
    p'.NaNFree := by
  obtain ⟨v, identity, elem, hv, -⟩ := h
  refine hp.rewrite fun k new hnew => ?_
  obtain ⟨-, rfl⟩ := Replacement.eq_of_nothing_add hnew
  exact Expr.wrap_isNaN identity elem (hp.parts hv)

theorem Event.moved_exprs {ρ : Relocation} {new : Symbol} {has : ScopeTree → Prop}
    {es es' : List Event} (h : List.Forall₂ (Moved ρ new has) es es') :
    (visits es').map (·.expr) = (visits es).map (·.expr) := by
  have hexprs : List.Forall₂ (· = ·) ((visits es').map (·.expr)) ((visits es).map (·.expr)) := by
    rw [List.forall₂_map_left_iff, List.forall₂_map_right_iff]
    exact (visits_moved h).flip.imp fun _ _ hm => hm.1
  rwa [List.forall₂_eq_eq_eq] at hexprs

/-- A declaration that goes in brings no expressions with it. -/
theorem Sighting.Inserted.visits_expr {namePrefix : String} {p p' : Program}
    {s : Sighting namePrefix p.walk} {c : Constituent} {r : Replacement}
    (I : s.Inserted c r p') :
    p'.visits.map (·.expr) = (p.rewrite r).visits.map (·.expr) := by
  have hbefore := congrArg Event.visits I.enlargement.walk
  have hafter := congrArg Event.visits I.enlargement.walk'
  rw [Program.visits_eq, Program.visits_eq, hbefore, hafter]
  simp only [Event.visits_append, Event.visits_cons_declare, List.map_append,
    Event.moved_exprs I.enlargement.pre_moved, Event.moved_exprs I.enlargement.lead_moved,
    Event.moved_exprs I.enlargement.after_moved, List.append_assoc]

namespace Extraction

variable {p p' : Program} {namePrefix : String} {oracle : TypeOracle} {x : Extraction}

/-- Taking a constituent out brings in no literal. -/
theorem nanFree_of_applyBy (happly : x.applyBy p namePrefix oracle = .ok p') (hp : p.NaNFree) :
    p'.NaNFree := by
  have hx : x ∈ p.extractionsBy namePrefix oracle := by
    by_cases hx : x ∈ p.extractionsBy namePrefix oracle
    · exact hx
    · rw [applyBy_of_notMem hx] at happly
      cases happly
  obtain ⟨plan, q, -, hq, s, c, -, -, hs, happlied⟩ := exists_applied hx
  obtain rfl := Except.ok.inj (happly.symm.trans hq)
  have hrewritten : (p.rewrite plan.replacement).NaNFree :=
    hp.rewrite fun k new hnew => (hs.names hnew).isNaN
  cases happlied with
  | reuse => exact hrewritten
  | insert _ _ _ I =>
    rw [Program.NaNFree, ← Program.visits_expr] at hrewritten ⊢
    rwa [I.visits_expr]

end Extraction

/-! ## Sources within their bounds -/

namespace RandomSource

variable {σ : Type} [RandomSource σ]

/-- The sources that a source leads to by questions. -/
inductive Leads (source : σ) : σ → Prop
  | start : Leads source source
  | ask {after : σ} (bound : Nat) : 0 < bound → Leads source after →
    Leads source (nextInt after bound).2

/-- A source stays below the bound: however often it is asked, it answers each
time, and with a number below the bound it is given. -/
def StaysBelow (source : σ) : Prop :=
  ∀ after, Leads source after → ∀ bound, 0 < bound →
    ∃ i < bound, (nextInt after bound).1 = .ok i

theorem Leads.trans {a b c : σ} (h : Leads a b) (h' : Leads b c) : Leads a c := by
  induction h' with
  | start => exact h
  | ask bound hb _ ih => exact .ask bound hb ih

theorem StaysBelow.after {source after : σ} (h : StaysBelow source) (hl : Leads source after) :
    StaysBelow after := fun _ hlater => h _ (hl.trans hlater)

/-- A question that a source within its bounds is asked. -/
theorem StaysBelow.ask {source : σ} (h : StaysBelow source) {bound : Nat} (hb : 0 < bound) :
    ∃ i after, i < bound ∧ nextInt source bound = (.ok i, after) ∧ StaysBelow after := by
  obtain ⟨i, hi, hanswer⟩ := h source .start bound hb
  exact ⟨i, (nextInt source bound).2, hi, Prod.ext hanswer rfl, h.after (.ask bound hb .start)⟩

theorem StaysBelow.choose {source : σ} (h : StaysBelow source) (candidates : List α) :
    ∃ choice after, RandomSource.choose source candidates = (.ok choice, after) ∧
      StaysBelow after := by
  unfold RandomSource.choose
  by_cases hc : candidates.isEmpty = true
  · exact ⟨none, source, by simp [hc], h⟩
  · obtain ⟨i, after, -, hnext, hafter⟩ :=
      h.ask (List.length_pos_iff.2 fun hnil => hc (List.isEmpty_iff.2 hnil))
    exact ⟨candidates[i]?, after, by simp [hc, hnext, Except.map], hafter⟩

end RandomSource

/-! ## Applying what was found -/

/-- A mutation point that was found can be applied. -/
theorem MutationPoint.exists_apply {σ : Type} [RandomSource σ] {p : Program}
    {switches : IdentitySwitches} {m : MutationPoint} (hm : m ∈ p.mutationPoints switches)
    (hp : p.NaNFree) {source : σ} (hsource : RandomSource.StaysBelow source) :
    ∃ p' after, m.apply p source = (.ok p', after) ∧ p'.NaNFree ∧
      RandomSource.StaysBelow after := by
  obtain ⟨v, hv, -, hordinal, hsnapshot⟩ := exists_visit hm
  have hplace : m.place? p =
      some ⟨v.expr, fun new => p.rewrite (Replacement.nothing.add v.ordinal new)⟩ := by
    have hsame : v.expr.same v.expr = true := v.expr.same_self (hp.parts hv)
    simp [place?, hordinal, exprPlace?_visit hv, hsnapshot, hsame]
  obtain ⟨choice, after, hchoice, hafter⟩ := hsource.choose m.identities
  have happly : ∃ p', m.apply p source = (.ok p', after) := by
    rw [apply, hplace]
    simp [hchoice, Except.map]
  obtain ⟨p', happly⟩ := happly
  exact ⟨p', after, happly, (wraps_of_apply hm (congrArg Prod.fst happly)).nanFree hp, hafter⟩

namespace Session

variable {σ : Type} [RandomSource σ] {s : Session σ} {p : Program}

/-- An opportunity that another start of merged names gave, and that a scan
under the settings of the session does not. -/
structure Foreign (s : Session σ) (p : Program) (x : Extraction) : Prop where
  found : ∃ namePrefix, .extraction namePrefix ∈ s.finders ∧
    namePrefix ≠ s.settings.mergedPrefix ∧ x ∈ p.extractions namePrefix
  missed : x ∉ p.extractions s.settings.mergedPrefix

/-- Whatever a scan finds can be applied, unless it is foreign. -/
theorem exists_apply {o : Opportunity} (ho : o ∈ s.scan p) (hp : p.NaNFree) {source : σ}
    (hsource : RandomSource.StaysBelow source) :
    (∃ changed after, o.apply s.settings p source = (.ok changed, after) ∧ changed.NaNFree ∧
        RandomSource.StaysBelow after) ∨
      ∃ x, o = .extraction x ∧ s.Foreign p x := by
  obtain ⟨f, hf, ho⟩ := List.mem_flatMap.1 ho
  cases f with
  | mutation switches =>
    obtain ⟨m, hm, rfl⟩ := List.mem_map.1 ho
    exact Or.inl (MutationPoint.exists_apply hm hp hsource)
  | extraction namePrefix =>
    obtain ⟨x, hx, rfl⟩ := List.mem_map.1 ho
    by_cases hmine : x ∈ p.extractions s.settings.mergedPrefix
    · obtain ⟨changed, happly⟩ := Extraction.exists_applyBy hmine
      exact Or.inl ⟨changed, source, congrArg (·, source) happly,
        Extraction.nanFree_of_applyBy happly hp, hsource⟩
    · have hforeign : namePrefix ≠ s.settings.mergedPrefix := by
        rintro rfl
        exact hmine hx
      exact Or.inr ⟨x, rfl, ⟨namePrefix, hf, hforeign, hx⟩, hmine⟩

/-- A step that chooses a foreign extraction is out of order, and leaves the
program as it is. -/
theorem step_foreign {i : Nat} {after : σ} {x : Extraction}
    (hnext : RandomSource.nextInt s.source (s.scan p).length = (.ok i, after))
    (hx : (s.scan p)[i]? = some (.extraction x)) (hforeign : s.Foreign p x) :
    s.step p = ⟨.error (.staleExtraction x.describe), p, { s with source := after }⟩ := by
  have hfound : (s.scan p).isEmpty = false := by
    rw [List.isEmpty_eq_false_iff]
    exact List.ne_nil_of_mem (List.mem_of_getElem? hx)
  have happly : x.apply p s.settings.mergedPrefix = .error (.staleExtraction x.describe) :=
    Extraction.applyBy_of_notMem hforeign.missed
  simp [step, hfound, hnext, hx, Opportunity.apply, happly]

/-- What a step does when the source stays below its bounds. -/
theorem step_fresh (hp : p.NaNFree) (hsource : RandomSource.StaysBelow s.source) :
    s.step p = ⟨.ok none, p, s⟩ ∨
      (∃ id changed after, s.step p = ⟨.ok (some id), changed, { s with source := after }⟩ ∧
        changed.NaNFree ∧ RandomSource.StaysBelow after) ∨
      ∃ x after, s.Foreign p x ∧
        s.step p = ⟨.error (.staleExtraction x.describe), p, { s with source := after }⟩ := by
  by_cases hfound : (s.scan p).isEmpty = true
  · left
    simp [step, hfound]
  · right
    obtain ⟨i, source, hi, hnext, hsource⟩ :=
      hsource.ask (List.length_pos_iff.2 fun hnil => hfound (List.isEmpty_iff.2 hnil))
    have ho := List.getElem?_eq_getElem hi
    have hmem := List.mem_of_getElem? ho
    rcases exists_apply hmem hp hsource with
      ⟨changed, after, happly, hchanged, hafter⟩ | ⟨x, hx, hforeign⟩
    · left
      refine ⟨(s.scan p)[i].id, changed, after, ?_, hchanged, hafter⟩
      simp [step, hfound, hnext, ho, happly]
    · right
      exact ⟨x, source, hforeign, step_foreign hnext (ho.trans (congrArg some hx)) hforeign⟩

/-- A run comes to an answer, or ends at an extraction that is foreign. -/
theorem run_fresh (steps : Nat) (hp : p.NaNFree) (hsource : RandomSource.StaysBelow s.source) :
    (∃ summary, (s.run steps p).answer = .ok summary) ∨
      ∃ x, s.Foreign (s.run steps p).program x ∧
        (s.run steps p).answer = .error (.staleExtraction x.describe) := by
  induction steps generalizing s p with
  | zero => exact Or.inl ⟨_, rfl⟩
  | succ steps ih =>
    rcases s.step_fresh hp hsource with
      hstep | ⟨id, changed, after, hstep, hchanged, hafter⟩ | ⟨x, after, hforeign, hstep⟩
    · left
      simp [run, hstep]
    · rcases ih (s := { s with source := after }) hchanged hafter with
        ⟨summary, hrest⟩ | ⟨x, hforeign, hrest⟩
      · left
        simp [run, hstep, hrest, Except.map]
      · right
        have hprogram : (s.run (steps + 1) p).program =
            (run steps { s with source := after } changed).program := by
          simp [run, hstep]
        refine ⟨x, ?_, by simp [run, hstep, hrest, Except.map]⟩
        rw [hprogram]
        exact ⟨hforeign.found, hforeign.missed⟩
    · right
      refine ⟨x, ?_, ?_⟩
      · simpa [run, hstep] using hforeign
      · simp [run, hstep]

/-- A session on a program of numbers, with a source that stays below its
bounds, takes all its steps, be its finders as they may, unless it comes to an
extraction that a finder with another start of merged names has found and that
a scan under the settings of the session misses. A step that chooses such an
extraction is out of order, and leaves the program as it is. -/
theorem exhaust_fresh (s : Session σ) (p : Program) (hp : p.NaNFree)
    (hsource : RandomSource.StaysBelow s.source) :
    ((∃ summary, (s.exhaust p).answer = .ok summary) ∨
        ∃ x, s.Foreign (s.exhaust p).program x ∧
          (s.exhaust p).answer = .error (.staleExtraction x.describe)) ∧
      ((∀ namePrefix, .extraction namePrefix ∈ s.finders → namePrefix = s.settings.mergedPrefix) →
        ∃ summary, (s.exhaust p).answer = .ok summary) ∧
      ∀ (q : Program) (source after : σ) (i : Nat) (x : Extraction),
        RandomSource.nextInt source (s.scan q).length = (.ok i, after) →
          (s.scan q)[i]? = some (.extraction x) → s.Foreign q x →
            step { s with source } q =
              ⟨.error (.staleExtraction x.describe), q, { s with source := after }⟩ := by
  have hrun := run_fresh s.settings.maxSteps hp hsource
  refine ⟨hrun, fun hown => ?_, fun q source after i x hnext hx hforeign => ?_⟩
  · rcases hrun with hrun | ⟨x, hforeign, -⟩
    · exact hrun
    · obtain ⟨namePrefix, hmem, hne, -⟩ := hforeign.found
      exact absurd (hown namePrefix hmem) hne
  · exact step_foreign (s := { s with source }) hnext hx ⟨hforeign.found, hforeign.missed⟩

omit [RandomSource σ] in
theorem staysBelow_zero (source : ZeroSource) : RandomSource.StaysBelow source :=
  fun _ _ _ hb => ⟨0, hb, rfl⟩

/-- The settings of a session whose merged names begin in another way. -/
def otherPrefix : SessionSettings := { SessionSettings.default with mergedPrefix := "M" }

/-- A session that both wraps and takes apart, on a program with a merged
vector; and one step of a session that comes to an extraction with another
start of merged names than its own. -/
theorem exhaust_fresh_merged :
    Program.merged.NaNFree ∧ RandomSource.StaysBelow (⟨⟩ : ZeroSource) ∧
      (∃ summary, ((Session.mk { SessionSettings.default with maxSteps := 5 }
        [.mutation .all, .extraction "GLF_merged"] (⟨⟩ : ZeroSource)).exhaust .merged).answer =
          .ok summary) ∧
      (Session.mk otherPrefix [.extraction "GLF_merged"] (⟨⟩ : ZeroSource)).step .merged =
        ⟨.error (.staleExtraction Extraction.mergedFloat.describe), .merged,
          ⟨otherPrefix, [.extraction "GLF_merged"], ⟨⟩⟩⟩ := by
  have hp : Program.merged.NaNFree := by
    unfold Program.NaNFree
    decide +kernel
  refine ⟨hp, staysBelow_zero _, (exhaust_fresh _ .merged hp (staysBelow_zero _)).2.1 ?_, ?_⟩
  · simp [SessionSettings.default, SessionSettings.defaultMergedPrefix]
  · let s : Session ZeroSource := ⟨otherPrefix, [.extraction "GLF_merged"], ⟨⟩⟩
    have hreported : (Program.merged.extractions "GLF_merged")[0]? = some .mergedFloat := by
      decide +kernel
    have hfirst : (s.scan .merged)[0]? = some (.extraction .mergedFloat) := by
      simp [scan, s, Finder.find, hreported]
    have hforeign : s.Foreign .merged .mergedFloat :=
      ⟨⟨"GLF_merged", by simp [s], by decide, by decide +kernel⟩, by decide +kernel⟩
    exact (exhaust_fresh s .merged hp (staysBelow_zero _)).2.2 .merged ⟨⟩ ⟨⟩ 0 .mergedFloat rfl
      hfirst hforeign

/-- A session with valid settings and a finder with another start of merged
names than its own applies an extraction that is stale. -/
theorem otherPrefix_stale :
    otherPrefix.check = .ok () ∧ Program.merged.NaNFree ∧
      RandomSource.StaysBelow (⟨⟩ : ZeroSource) ∧
      (((Session.mk otherPrefix [] (⟨⟩ : ZeroSource)).withFinder
        (.extraction "GLF_merged")).exhaust .merged).answer =
          .error (.staleExtraction "extract float b from GLF_merged2_0_1_1_1_2_1bc") := by
  refine ⟨by decide +kernel, ?_, staysBelow_zero _, by decide +kernel⟩
  unfold Program.NaNFree
  decide +kernel

end Session

end ShaderMorph
