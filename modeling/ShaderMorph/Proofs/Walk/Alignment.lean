-- Expressions side by side. What an expression is made of is met right behind
-- it, so the walk stays on one side of a declaration while it goes through an
-- expression. When expressions are replaced, the visits before and after are
-- matched in order: one that is replaced is matched with what it was replaced
-- by, and its parts with nothing.
import Mathlib.Data.List.Forall2
import ShaderMorph.Proofs.Walk.Rewritten

namespace ShaderMorph

/-! ## What is met in an expression -/

/-- A stretch without `x` lies before it or behind it. -/
theorem infix_of_split {l a b : List α} {x : α} (h : l <:+: a ++ x :: b) (hx : x ∉ l) :
    l <:+: a ∨ l <:+: b := by
  obtain ⟨l₁, l₂, h⟩ := h
  rcases List.append_eq_append_iff.1 h with ⟨c, rfl, -⟩ | ⟨c, hl, hb⟩
  · exact Or.inl (List.infix_append l₁ l c)
  · cases c with
    | nil => exact Or.inl ⟨l₁, [], by simpa using hl⟩
    | cons y c =>
      cases hb
      rcases List.append_eq_append_iff.1 hl with ⟨m, -, rfl⟩ | ⟨m, -, hm⟩
      · simp at hx
      · cases m with
        | nil =>
          rw [List.nil_append] at hm
          exact absurd (hm ▸ List.mem_cons_self) hx
        | cons z m =>
          cases hm
          exact Or.inr (List.infix_append m l l₂)

/-- What is met in the expression of a visit, that one first. -/
def Visit.parts (heads : List Prototype) (v : Visit) : List Visit :=
  v.expr.visits heads v.scope v.around v.parent v.ordinal

namespace Expr

/-- An expression is met first, and then its parts. -/
theorem visits_eq_cons (heads : List Prototype) (scope : ScopeTree) (e : Expr)
    (around : Surroundings) (parent : Option Nat) (k : Nat) :
    ∃ rest, e.visits heads scope around parent k = ⟨e, k, parent, around, scope⟩ :: rest ∧
      1 + rest.length = e.size := by
  obtain ⟨rest, h⟩ : ∃ rest, e.visits heads scope around parent k =
      ⟨e, k, parent, around, scope⟩ :: rest := by
    cases e <;> exact ⟨_, rfl⟩
  refine ⟨rest, h, ?_⟩
  have hlength := congrArg List.length (e.visits_ordinal heads scope around parent k)
  rw [h] at hlength
  simp only [List.map_cons, List.length_cons, List.length_map, List.length_range'] at hlength
  omega

theorem rewrite_of_some (e : Expr) {r : Replacement} {k : Nat} {new : Expr} (h : r k = some new) :
    e.rewrite r k = new := by
  cases e <;> simp [rewrite, h]

variable (heads : List Prototype) (scope : ScopeTree)

theorem stretch_root {e : Expr} {around : Surroundings} {parent : Option Nat} {k : Nat}
    {rest : List Visit}
    (hv : e.visits heads scope around parent k = ⟨e, k, parent, around, scope⟩ :: rest)
    (h : ∀ v ∈ rest, v.parts heads <:+: rest) :
    ∀ v ∈ e.visits heads scope around parent k,
      v.parts heads <:+: e.visits heads scope around parent k := by
  rw [hv]
  intro v hmem
  rcases List.mem_cons.1 hmem with rfl | hmem
  · have hself : Visit.parts heads ⟨e, k, parent, around, scope⟩ =
        ⟨e, k, parent, around, scope⟩ :: rest := hv
    simp only [hself, List.infix_rfl]
  · exact (h v hmem).trans (List.infix_cons List.infix_rfl)

theorem stretch_append {a b : List Visit} (ha : ∀ v ∈ a, v.parts heads <:+: a)
    (hb : ∀ v ∈ b, v.parts heads <:+: b) : ∀ v ∈ a ++ b, v.parts heads <:+: a ++ b := by
  intro v hv
  rcases List.mem_append.1 hv with hv | hv
  · exact (ha v hv).trans List.infix_append_left
  · exact (hb v hv).trans List.infix_append_right

mutual

/-- The parts of whatever is met in an expression are met in one stretch. -/
theorem visits_stretch : (e : Expr) → (around : Surroundings) → (parent : Option Nat) → (k : Nat) →
    ∀ v ∈ e.visits heads scope around parent k,
      v.parts heads <:+: e.visits heads scope around parent k
  | .ident _, _, _, _ => stretch_root heads scope rfl (by simp)
  | .literal _, _, _, _ => stretch_root heads scope rfl (by simp)
  | .binary _ lhs rhs, _, _, _ => stretch_root heads scope rfl
    (stretch_append heads (visits_stretch lhs _ _ _) (visits_stretch rhs _ _ _))
  | .unary _ operand, _, _, _ => stretch_root heads scope rfl (visits_stretch operand _ _ _)
  | .member base _, _, _, _ => stretch_root heads scope rfl (visits_stretch base _ _ _)
  | .index base position, _, _, _ => stretch_root heads scope rfl
    (stretch_append heads (visits_stretch base _ _ _) (visits_stretch position _ _ _))
  | .call callee args, _, _, _ => stretch_root heads scope rfl
    (visitsArgs_stretch callee args.length args _ _ _ _)
  | .ternary cond thenExpr elseExpr, _, _, _ => stretch_root heads scope rfl
    (stretch_append heads
      (stretch_append heads (visits_stretch cond _ _ _) (visits_stretch thenExpr _ _ _))
      (visits_stretch elseExpr _ _ _))
  | .paren inner, _, _, _ => stretch_root heads scope rfl (visits_stretch inner _ _ _)

theorem visitsArgs_stretch (callee : String) (arity : Nat) : (es : List Expr) → (i : Nat) →
    (around : Surroundings) → (caller k : Nat) →
    ∀ v ∈ visitsArgs heads scope callee arity es i around caller k,
      v.parts heads <:+: visitsArgs heads scope callee arity es i around caller k
  | [], _, _, _, _ => by simp [visitsArgs]
  | e :: es, _, _, _, _ => by
    rw [visitsArgs]
    exact stretch_append heads (visits_stretch e _ _ _) (visitsArgs_stretch callee arity es _ _ _ _)

end

end Expr

namespace Visit

variable {heads : List Prototype} {v w : Visit}

theorem mem_parts (v : Visit) (heads : List Prototype) : v ∈ v.parts heads := by
  obtain ⟨rest, hrest, -⟩ := v.expr.visits_eq_cons heads v.scope v.around v.parent v.ordinal
  unfold parts
  rw [hrest]
  exact List.mem_cons_self

theorem scope_of_parts (h : w ∈ v.parts heads) : w.scope = v.scope :=
  (v.expr.visits_beside heads v.scope v.around v.parent v.ordinal w h).1

theorem initializerOf_of_parts (h : w ∈ v.parts heads) :
    w.around.initializerOf = v.around.initializerOf :=
  congrArg (·.initializerOf) (v.expr.visits_beside heads v.scope v.around v.parent v.ordinal w h).2

end Visit

namespace Command

theorem events_stretch {heads : List Prototype} {s : WalkState} {c : Command} {v : Visit}
    (h : .visit v ∈ c.events heads s) :
    (v.parts heads).map Event.visit <:+: c.events heads s := by
  have hvisits : ∀ (around : Surroundings) (e : Expr),
      .visit v ∈ (e.visits heads s.scope around none s.ordinal).map Event.visit →
        (v.parts heads).map Event.visit <:+:
          (e.visits heads s.scope around none s.ordinal).map Event.visit := by
    intro around e he
    obtain ⟨w, hw, he⟩ := List.mem_map.1 he
    cases he
    exact (e.visits_stretch heads s.scope around none s.ordinal v hw).map _
  cases c with
  | expr around e => exact hvisits around e h
  | declare d =>
    cases hi : d.initializer with
    | none => simp [events, Declarator.visits, Expr.visitsOption, hi] at h
    | some e =>
      simp only [events, Declarator.visits, Expr.visitsOption, hi] at h ⊢
      rcases List.mem_append.1 h with h | h
      · exact (hvisits (d.inner s.id) e h).trans List.infix_append_left
      · simp at h
  | enter o => cases h
  | leave => cases h

end Command

namespace Program

variable {p : Program}

theorem walk_stretch {v : Visit} (h : .visit v ∈ p.walk) :
    (v.parts p.prototypes).map Event.visit <:+: p.walk := by
  rw [walk_eq_run] at h ⊢
  obtain ⟨before, c, after, hcs, he⟩ := Command.mem_run h
  rw [hcs, Command.run_append, Command.run]
  exact ((Command.events_stretch he).trans List.infix_append_left).trans List.infix_append_right

/-- Nothing is visited on both sides of a declaration. -/
theorem not_mem_both {before after : List Event} {d : Declared}
    (h : p.walk = before ++ .declare d :: after) {v : Visit} (hb : .visit v ∈ before)
    (ha : .visit v ∈ after) : False := by
  have hn : (p.visits.map (·.ordinal)).Nodup := by
    rw [visits_ordinal]
    exact List.nodup_range
  rw [visits_eq, h, Event.visits_append, Event.visits_cons_declare] at hn
  exact (List.nodup_append.1 hn.of_map).2.2 v (Event.mem_visits.2 hb) v (Event.mem_visits.2 ha) rfl

/-- What is part of something in front of a declaration stands there, too. -/
theorem part_before {before after : List Event} {d : Declared}
    (h : p.walk = before ++ .declare d :: after) {v w : Visit} (hv : .visit v ∈ before)
    (hw : w ∈ v.parts p.prototypes) : .visit w ∈ before := by
  have hwalk : .visit v ∈ p.walk := by
    rw [h]
    exact List.mem_append_left _ hv
  have hparts := walk_stretch hwalk
  rw [h] at hparts
  rcases infix_of_split hparts (by simp) with hparts | hparts
  · exact hparts.subset (List.mem_map_of_mem hw)
  · exact (not_mem_both h hv (hparts.subset (List.mem_map_of_mem (v.mem_parts _)))).elim

end Program

/-! ## Visits matched -/

/-- Visits before and after expressions were replaced, matched in order. What
is replaced is matched with what it is replaced by. The parts of both are
passed over: as many visits as the expressions have nodes, less their own. -/
inductive Visit.Aligned (r : Replacement) (R : Visit → Visit → Prop) :
    List Visit → List Visit → Prop
  | nil : Aligned r R [] []
  | kept {v v' : Visit} {vs vs' : List Visit} : r v.ordinal = none → R v v' →
    Aligned r R vs vs' → Aligned r R (v :: vs) (v' :: vs')
  | replaced {v v' : Visit} {inner inner' vs vs' : List Visit} : r v.ordinal = some v'.expr →
    1 + inner.length = v.expr.size → 1 + inner'.length = v'.expr.size → R v v' →
      Aligned r R vs vs' → Aligned r R (v :: (inner ++ vs)) (v' :: (inner' ++ vs'))

theorem forall₂_append_left {R : α → β → Prop} {a b : List α} {c : List β}
    (h : List.Forall₂ R (a ++ b) c) :
    ∃ c₁ c₂, c = c₁ ++ c₂ ∧ List.Forall₂ R a c₁ ∧ List.Forall₂ R b c₂ := by
  induction a generalizing c with
  | nil => exact ⟨[], c, rfl, .nil, h⟩
  | cons x a ih =>
    cases h with
    | cons hx h =>
      obtain ⟨c₁, c₂, rfl, h₁, h₂⟩ := ih h
      exact ⟨_ :: c₁, c₂, rfl, .cons hx h₁, h₂⟩

namespace Visit.Aligned

variable {r : Replacement} {R S T : Visit → Visit → Prop} {a b a' b' c : List Visit}

theorem append (h : Aligned r R a a') (h' : Aligned r R b b') :
    Aligned r R (a ++ b) (a' ++ b') := by
  induction h with
  | nil => exact h'
  | kept hk hR _ ih => exact .kept hk hR ih
  | replaced hk hs hs' hR _ ih =>
    simpa only [List.cons_append, List.append_assoc] using .replaced hk hs hs' hR ih

/-- A match carries on to visits of the same expressions. -/
theorem comp (h : Aligned r R a b) (h' : List.Forall₂ S b c)
    (hS : ∀ w w', S w w' → w'.expr = w.expr)
    (hT : ∀ v ∈ a, ∀ w w', R v w → S w w' → T v w') : Aligned r T a c := by
  induction h generalizing c with
  | nil =>
    cases h'
    exact .nil
  | kept hk hR _ ih =>
    cases h' with
    | cons hw h' =>
      refine .kept hk (hT _ List.mem_cons_self _ _ hR hw) (ih h' ?_)
      intro v hv
      exact hT v (List.mem_cons_of_mem _ hv)
  | @replaced v w inner inner' vs vs' hk hs hs' hR _ ih =>
    cases h' with
    | @cons _ w' _ _ hw h' =>
      obtain ⟨c₁, c₂, rfl, h₁, h₂⟩ := forall₂_append_left h'
      have hexpr := hS _ _ hw
      refine .replaced (hexpr ▸ hk) hs ?_ (hT _ List.mem_cons_self _ _ hR hw) (ih h₂ ?_)
      · rw [hexpr, ← h₁.length_eq]
        exact hs'
      · intro u hu
        exact hT u (List.mem_cons_of_mem _ (List.mem_append_right _ hu))

end Visit.Aligned

/-- What becomes of a visit when expressions are replaced. -/
structure Visit.Became (r : Replacement) (v v' : Visit) : Prop where
  expr : v'.expr = v.expr.rewrite r v.ordinal
  scope : v'.scope = v.scope
  around : v'.around = v.around
  outer : r v.ordinal = none → ∀ k, v.parent = some k → r k = none

/-- The visits of a walk are matched with those after expressions were
replaced. -/
theorem Rewritten.aligned {heads : List Prototype} {r : Replacement} {es es' : List Event}
    (h : Rewritten heads r es es') :
    Visit.Aligned r (Visit.Became r) (Event.visits es) (Event.visits es') := by
  induction h with
  | nil => exact .nil
  | declare d _ ih => exact ih
  | kept v v' hk hp he hs ha _ ih => exact .kept hk ⟨he, hs, ha, fun _ => hp⟩ ih
  | replaced e new scope around parent parent' k k' hk _ ih =>
    rw [Event.visits_append, Event.visits_append, Event.visits_map_visit, Event.visits_map_visit]
    obtain ⟨inner, hv, hs⟩ := e.visits_eq_cons heads scope around parent k
    obtain ⟨inner', hv', hs'⟩ := new.visits_eq_cons heads scope around parent' k'
    have hnew : new = e.rewrite r k := (e.rewrite_of_some hk).symm
    rw [hv, hv']
    exact .replaced hk hs hs' ⟨hnew, rfl, rfl, fun hnone => by simp [hk] at hnone⟩ ih

end ShaderMorph
