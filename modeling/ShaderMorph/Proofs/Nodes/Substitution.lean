-- Replacing expressions by what they are, and not by their numbers. When the
-- replacement of every expression is told by the expression and its scope, a
-- rewriting is a substitution, and that knows of no numbers. So two rewritings
-- of that kind can be compared in either order, though the first of them
-- renumbers what the second one replaces.
import ShaderMorph.Proofs.Nodes.Exchange

namespace ShaderMorph

namespace Expr

/-! ## Substitution -/

mutual

/-- Put what `g` gives in the place of an expression, or else substitute in
its parts. -/
def substitute (g : Expr → Option Expr) : Expr → Expr
  | .ident name => (g (.ident name)).getD (.ident name)
  | .literal value => (g (.literal value)).getD (.literal value)
  | .binary op lhs rhs =>
    (g (.binary op lhs rhs)).getD (.binary op (lhs.substitute g) (rhs.substitute g))
  | .unary op operand => (g (.unary op operand)).getD (.unary op (operand.substitute g))
  | .member base name => (g (.member base name)).getD (.member (base.substitute g) name)
  | .index base position =>
    (g (.index base position)).getD (.index (base.substitute g) (position.substitute g))
  | .call callee args => (g (.call callee args)).getD (.call callee (substituteAll g args))
  | .ternary cond thenExpr elseExpr =>
    (g (.ternary cond thenExpr elseExpr)).getD
      (.ternary (cond.substitute g) (thenExpr.substitute g) (elseExpr.substitute g))
  | .paren inner => (g (.paren inner)).getD (.paren (inner.substitute g))

def substituteAll (g : Expr → Option Expr) : List Expr → List Expr
  | [] => []
  | e :: es => e.substitute g :: substituteAll g es

end

theorem substitute_of_some {g : Expr → Option Expr} {e new : Expr} (h : g e = some new) :
    e.substitute g = new := by
  cases e <;> simp [substitute, h]

/-! ## Rewriting as substitution -/

section

variable {heads : List Prototype} {scope : ScopeTree} {r : Replacement} {g : Expr → Option Expr}

mutual

/-- A rewriting that goes by what the expressions are is a substitution. -/
theorem rewrite_eq_substitute : (e : Expr) → {around : Surroundings} → {parent : Option Nat} →
    {k : Nat} → (∀ v ∈ e.visits heads scope around parent k, r v.ordinal = g v.expr) →
    e.rewrite r k = e.substitute g
  | .ident _, _, _, _, h => by
    simp only [visits, List.forall_mem_singleton] at h
    simp only [rewrite, substitute, h]
  | .literal _, _, _, _, h => by
    simp only [visits, List.forall_mem_singleton] at h
    simp only [rewrite, substitute, h]
  | .binary _ lhs rhs, _, _, _, h => by
    simp only [visits, List.forall_mem_cons, List.forall_mem_append] at h
    obtain ⟨hroot, hlhs, hrhs⟩ := h
    simp only [rewrite, substitute, hroot, rewrite_eq_substitute lhs hlhs,
      rewrite_eq_substitute rhs hrhs]
  | .unary _ operand, _, _, _, h => by
    simp only [visits, List.forall_mem_cons] at h
    simp only [rewrite, substitute, h.1, rewrite_eq_substitute operand h.2]
  | .member base _, _, _, _, h => by
    simp only [visits, List.forall_mem_cons] at h
    simp only [rewrite, substitute, h.1, rewrite_eq_substitute base h.2]
  | .index base position, _, _, _, h => by
    simp only [visits, List.forall_mem_cons, List.forall_mem_append] at h
    obtain ⟨hroot, hbase, hposition⟩ := h
    simp only [rewrite, substitute, hroot, rewrite_eq_substitute base hbase,
      rewrite_eq_substitute position hposition]
  | .call _ args, _, _, _, h => by
    simp only [visits, List.forall_mem_cons] at h
    simp only [rewrite, substitute, h.1, rewriteAll_eq_substituteAll args h.2]
  | .ternary cond thenExpr elseExpr, _, _, _, h => by
    simp only [visits, List.forall_mem_cons, List.forall_mem_append] at h
    obtain ⟨hroot, ⟨hcond, hthen⟩, helse⟩ := h
    simp only [rewrite, substitute, hroot, rewrite_eq_substitute cond hcond,
      rewrite_eq_substitute thenExpr hthen, rewrite_eq_substitute elseExpr helse]
  | .paren inner, _, _, _, h => by
    simp only [visits, List.forall_mem_cons] at h
    simp only [rewrite, substitute, h.1, rewrite_eq_substitute inner h.2]

theorem rewriteAll_eq_substituteAll : (es : List Expr) → {callee : String} → {arity i : Nat} →
    {around : Surroundings} → {caller k : Nat} →
    (∀ v ∈ visitsArgs heads scope callee arity es i around caller k, r v.ordinal = g v.expr) →
    rewriteAll r es k = substituteAll g es
  | [], _, _, _, _, _, _, _ => by simp only [rewriteAll, substituteAll]
  | e :: es, _, _, _, _, _, _, h => by
    simp only [visitsArgs, List.forall_mem_append] at h
    simp only [rewriteAll, substituteAll, rewrite_eq_substitute e h.1,
      rewriteAll_eq_substituteAll es h.2]

end

end

/-! ## One substitution after another -/

section

variable {g g' : Expr → Option Expr}

/-- A second substitution does not see the first one: it leaves what the first
one put in, and takes what the first one left for what it was. -/
structure Blind (g g' : Expr → Option Expr) : Prop where
  leaves : ∀ e new, g e = some new → new.substitute g' = new
  sees : ∀ e, g e = none → g' (e.substitute g) = g' e

/-- An expression that the first substitution does not replace as a whole. -/
theorem substitute_twice {e e' e'' : Expr} (h : Blind g g')
    (hone : e.substitute g = (g e).getD e') (htwo : e'.substitute g' = (g' e').getD e'')
    (hboth : e.substitute (fun e => (g e).or (g' e)) = ((g e).or (g' e)).getD e'') :
    (e.substitute g).substitute g' = e.substitute fun e => (g e).or (g' e) := by
  cases hg : g e with
  | some new =>
    rw [substitute_of_some hg, h.leaves e new hg, hboth, hg]
    rfl
  | none =>
    have hsees := h.sees e hg
    rw [hone, hg, Option.getD_none] at hsees
    rw [hboth, hone, hg, Option.getD_none, htwo, hsees]
    rfl

mutual

/-- Two substitutions, the second of which is blind for the first one, are one
substitution. -/
theorem substitute_substitute (h : Blind g g') : (e : Expr) →
    (e.substitute g).substitute g' = e.substitute fun e => (g e).or (g' e)
  | .ident _ => substitute_twice h rfl rfl rfl
  | .literal _ => substitute_twice h rfl rfl rfl
  | .binary _ lhs rhs => substitute_twice h rfl rfl (by
    simp only [substitute, substitute_substitute h lhs, substitute_substitute h rhs])
  | .unary _ operand => substitute_twice h rfl rfl (by
    simp only [substitute, substitute_substitute h operand])
  | .member base _ => substitute_twice h rfl rfl (by
    simp only [substitute, substitute_substitute h base])
  | .index base position => substitute_twice h rfl rfl (by
    simp only [substitute, substitute_substitute h base, substitute_substitute h position])
  | .call _ args => substitute_twice h rfl rfl (by
    simp only [substitute, substituteAll_substituteAll h args])
  | .ternary cond thenExpr elseExpr => substitute_twice h rfl rfl (by
    simp only [substitute, substitute_substitute h cond, substitute_substitute h thenExpr,
      substitute_substitute h elseExpr])
  | .paren inner => substitute_twice h rfl rfl (by
    simp only [substitute, substitute_substitute h inner])

theorem substituteAll_substituteAll (h : Blind g g') : (es : List Expr) →
    substituteAll g' (substituteAll g es) = substituteAll (fun e => (g e).or (g' e)) es
  | [] => by simp only [substituteAll]
  | e :: es => by
    simp only [substituteAll, substitute_substitute h e, substituteAll_substituteAll h es]

end

/-- Substitutions that are blind for each other and have nothing to replace in
common can change places. -/
theorem substitute_comm (h : Blind g g') (h' : Blind g' g)
    (hapart : ∀ e, g e = none ∨ g' e = none) (e : Expr) :
    (e.substitute g).substitute g' = (e.substitute g').substitute g := by
  have hor : (fun e => (g e).or (g' e)) = fun e => (g' e).or (g e) := by
    funext e
    rcases hapart e with hnone | hnone <;> simp [hnone]
  rw [substitute_substitute h, substitute_substitute h', hor]

end

end Expr

/-! ## Rows and programs -/

/-- Substitute in the expression at a site, by what its scope says. -/
def Site.substitute (g : ScopeTree → Expr → Option Expr) (s : Site) : Site :=
  { s with expr := s.expr.substitute (g s.scope) }

/-- What `r` replaces, among visits, is told by what is visited and its scope. -/
def Replacement.Uniform (r : Replacement) (g : ScopeTree → Expr → Option Expr) (vs : List Visit) :
    Prop :=
  ∀ v ∈ vs, r v.ordinal = g v.scope v.expr

theorem Site.rewriteAll_eq_substitute {heads : List Prototype} {parent : Option Nat}
    {r : Replacement} {g : ScopeTree → Expr → Option Expr} {ss : List Site} {k : Nat}
    (h : r.Uniform g (row heads parent ss k)) : rewriteAll r ss k = ss.map (substitute g) := by
  induction ss generalizing k with
  | nil => rfl
  | cons s ss ih =>
    obtain ⟨hs, hss⟩ := List.forall_mem_append.1 h
    have hexpr : s.expr.rewrite r k = s.expr.substitute (g s.scope) :=
      s.expr.rewrite_eq_substitute fun v hv => by
        rw [hs v hv, (s.expr.visits_beside heads s.scope s.around parent k v hv).1]
    rw [rewriteAll, ih hss, hexpr]
    rfl

theorem Replacement.blurred_blank (r : Replacement) (k : Nat) (l : List (Root × Expr)) :
    r.Blurred Root.blank k l := by
  induction l generalizing k with
  | nil => trivial
  | cons a l ih => exact ⟨rfl, ih _⟩

namespace Program

variable {p : Program}

theorem sites_substitute {r : Replacement} {g : ScopeTree → Expr → Option Expr}
    (h : r.Uniform g p.visits) : (p.rewrite r).sites = p.sites.map (Site.substitute g) := by
  rw [visits_eq_row] at h
  rw [sites_rewrite, Site.rewriteAll_eq_substitute h]

/-- Rewritings are the same program when they leave the same roots. -/
theorem eq_of_rewritten {q q' : Program} (h : q.mapRoots Root.blank = p.mapRoots Root.blank)
    (h' : q'.mapRoots Root.blank = p.mapRoots Root.blank) (hsites : q.sites = q'.sites) :
    q = q' := by
  have hroots := congrArg (List.map (·.expr)) hsites
  rw [sites_exprs, sites_exprs] at hroots
  exact eq_of_roots (h.trans h'.symm) hroots

/-- Two rewritings that go by what the expressions are, and do not see each
other's work, can be made in either order. -/
theorem rewrite_comm {r₁ r₂ r₁' r₂' : Replacement} {g₁ g₂ : ScopeTree → Expr → Option Expr}
    (h₁ : r₁.Uniform g₁ p.visits) (h₂ : r₂.Uniform g₂ p.visits)
    (h₁' : r₁'.Uniform g₁ (p.rewrite r₂).visits) (h₂' : r₂'.Uniform g₂ (p.rewrite r₁).visits)
    (hcomm : ∀ (t : ScopeTree) (e : Expr),
      (e.substitute (g₁ t)).substitute (g₂ t) = (e.substitute (g₂ t)).substitute (g₁ t)) :
    (p.rewrite r₁).rewrite r₂' = (p.rewrite r₂).rewrite r₁' := by
  have hkept : ∀ (q : Program) (r : Replacement),
      (q.rewrite r).mapRoots Root.blank = q.mapRoots Root.blank :=
    fun q r => mapRoots_rewrite (r.blurred_blank 0 q.roots)
  refine eq_of_rewritten (p := p) (by rw [hkept, hkept]) (by rw [hkept, hkept]) ?_
  rw [sites_substitute h₂', sites_substitute h₁, sites_substitute h₁', sites_substitute h₂,
    List.map_map, List.map_map]
  refine List.map_congr_left fun s _ => ?_
  simp only [Function.comp_apply, Site.substitute, hcomm]

end Program

end ShaderMorph
