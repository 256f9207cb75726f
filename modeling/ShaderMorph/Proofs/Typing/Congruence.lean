-- Types when parts of an expression are replaced. The type of an expression
-- is told by the types of some of its parts and by the names in it, so it
-- stays where each replaced part keeps its type and each other name stands for
-- something of the same type.
import ShaderMorph.Proofs.Walk.Rewritten
import ShaderMorph.Typing.Oracle

namespace ShaderMorph

theorem DataType.memberOf?_ofComponents (scalarSwizzles : Bool) (elem : ElementKind) (width : Nat)
    (name : String) :
    (ofComponents elem width).memberOf? scalarSwizzles name =
      if width = 1 ∧ scalarSwizzles = false then none
      else (Swizzle.parse? name width).map fun s => ofComponents elem s.length := by
  by_cases hone : width = 1
  · subst hone
    have hscalar : ofComponents elem 1 = scalar elem := if_pos rfl
    cases scalarSwizzles <;> simp [hscalar, memberOf?]
  · have hvector : ofComponents elem width = vector elem width := if_neg hone
    simp [hvector, memberOf?, hone]

namespace DeclaredTypes

variable {d : DeclaredTypes} {scope scope' : ScopeTree}

/-- What has a type keeps it as it turns into something else in another
scope. -/
def Carries (d : DeclaredTypes) (scope scope' : ScopeTree) (e e' : Expr) : Prop :=
  ∀ t, d.typeOf scope e = some t → d.typeOf scope' e' = some t

/-! ## One form of expression each -/

namespace Carries

theorem ident {name : String}
    (h : ∀ u, scope.lookup name = some u → ∃ u', scope'.lookup name = some u' ∧ u'.type = u.type) :
    d.Carries scope scope' (.ident name) (.ident name) := by
  intro t ht
  obtain ⟨u, hu, rfl⟩ := Option.map_eq_some_iff.1 ht
  obtain ⟨u', hu', htype⟩ := h u hu
  exact Option.map_eq_some_iff.2 ⟨u', hu', htype⟩

theorem literal (value : Literal) : d.Carries scope scope' (.literal value) (.literal value) :=
  fun _ ht => ht

theorem paren {inner inner' : Expr} (h : d.Carries scope scope' inner inner') :
    d.Carries scope scope' (.paren inner) (.paren inner') := h

theorem member {base base' : Expr} (h : d.Carries scope scope' base base') (name : String) :
    d.Carries scope scope' (.member base name) (.member base' name) := by
  intro t ht
  obtain ⟨u, hu, ht⟩ := Option.bind_eq_some_iff.1 ht
  exact Option.bind_eq_some_iff.2 ⟨u, h u hu, ht⟩

theorem index {base base' : Expr} (h : d.Carries scope scope' base base')
    (position position' : Expr) :
    d.Carries scope scope' (.index base position) (.index base' position') := by
  intro t ht
  obtain ⟨u, hu, ht⟩ := Option.bind_eq_some_iff.1 ht
  exact Option.bind_eq_some_iff.2 ⟨u, h u hu, ht⟩

/-- A call has the type of what is called, whatever the arguments are. -/
theorem call (callee : String) (args args' : List Expr) :
    d.Carries scope scope' (.call callee args) (.call callee args') :=
  fun _ ht => ht

theorem arithmetic {lhs lhs' rhs rhs' : Expr} (hl : d.Carries scope scope' lhs lhs')
    (hr : d.Carries scope scope' rhs rhs') {t : DataType}
    (ht : (do (← d.typeOf scope lhs).arithmetic? (← d.typeOf scope rhs)) = some t) :
    (do (← d.typeOf scope' lhs').arithmetic? (← d.typeOf scope' rhs')) = some t := by
  obtain ⟨u, hu, ht⟩ := Option.bind_eq_some_iff.1 ht
  obtain ⟨w, hw, ht⟩ := Option.bind_eq_some_iff.1 ht
  exact Option.bind_eq_some_iff.2 ⟨u, hl u hu, Option.bind_eq_some_iff.2 ⟨w, hr w hw, ht⟩⟩

theorem binary {lhs lhs' rhs rhs' : Expr} (hl : d.Carries scope scope' lhs lhs')
    (hr : d.Carries scope scope' rhs rhs') (op : BinaryOp) :
    d.Carries scope scope' (.binary op lhs rhs) (.binary op lhs' rhs') := by
  intro t ht
  unfold typeOf at ht ⊢
  split at ht
  · next hassign =>
    rw [if_pos hassign]
    exact hl t ht
  · next hassign =>
    rw [if_neg hassign]
    split at ht
    · next hbool =>
      rw [if_pos hbool]
      exact ht
    · next hbool =>
      rw [if_neg hbool]
      cases op with
      | comma => exact hr t ht
      | shl => exact hl t ht
      | shr => exact hl t ht
      | _ => exact arithmetic hl hr ht

theorem unary {operand operand' : Expr} (h : d.Carries scope scope' operand operand')
    (op : UnaryOp) : d.Carries scope scope' (.unary op operand) (.unary op operand') := by
  intro t ht
  unfold typeOf at ht ⊢
  split at ht
  · next hnot =>
    rw [if_pos hnot]
    exact ht
  · next hnot =>
    rw [if_neg hnot]
    exact h t ht

theorem ternary {thenExpr thenExpr' : Expr} (h : d.Carries scope scope' thenExpr thenExpr')
    (cond cond' elseExpr elseExpr' : Expr) :
    d.Carries scope scope' (.ternary cond thenExpr elseExpr) (.ternary cond' thenExpr' elseExpr') :=
  h

end Carries

/-! ## Replacing parts -/

/-- What a visit has to do with the types of what it is part of: where it is
replaced, its own type is kept, and where it is a name that is left alone, the
name stands for something of the same type. -/
structure Keeps (d : DeclaredTypes) (r : Replacement) (scope' : ScopeTree) (v : Visit) :
    Prop where
  replaced : ∀ new, r v.ordinal = some new → d.Carries v.scope scope' v.expr new
  named : ∀ name, v.expr = .ident name → r v.ordinal = none →
    (∀ k, v.parent = some k → r k = none) → ∀ u, v.scope.lookup name = some u →
      ∃ u', scope'.lookup name = some u' ∧ u'.type = u.type

variable (heads : List Prototype) (r : Replacement)

/-- An expression is replaced as a whole, or its parts are. -/
theorem Carries.root {e e' : Expr} {around : Surroundings} {parent : Option Nat} {k : Nat}
    {rest : List Visit} (hr : e.rewrite r k = (r k).getD e')
    (hv : e.visits heads scope around parent k = ⟨e, k, parent, around, scope⟩ :: rest)
    (hk : ∀ v ∈ e.visits heads scope around parent k, d.Keeps r scope' v)
    (h : r k = none → (∀ v ∈ rest, d.Keeps r scope' v) → d.Carries scope scope' e e') :
    d.Carries scope scope' e (e.rewrite r k) := by
  rw [hv, List.forall_mem_cons] at hk
  rw [hr]
  cases hnew : r k with
  | none => exact h hnew hk.2
  | some new => exact hk.1.replaced new hnew

/-- The type of an expression is kept when its parts are replaced. Of a call
and an index only the callee and the base matter, and so on, so the recursion
goes down no further than the oracle does. -/
theorem carries_rewrite : (e : Expr) → {around : Surroundings} → {parent : Option Nat} →
    {k : Nat} → (∀ j, parent = some j → r j = none) →
    (∀ v ∈ e.visits heads scope around parent k, d.Keeps r scope' v) →
    d.Carries scope scope' e (e.rewrite r k)
  | .ident name, _, _, _, hp, hk => .root heads r rfl rfl hk fun hnone _ =>
    .ident ((hk _ List.mem_cons_self).named name rfl hnone hp)
  | .literal value, _, _, _, _, hk => .root heads r rfl rfl hk fun _ _ => .literal value
  | .binary op lhs rhs, _, _, _, _, hk => .root heads r rfl rfl hk fun hnone hparts => by
    obtain ⟨hl, hr⟩ := List.forall_mem_append.1 hparts
    exact .binary (carries_rewrite lhs (by simpa using hnone) hl)
      (carries_rewrite rhs (by simpa using hnone) hr) op
  | .unary op operand, _, _, _, _, hk => .root heads r rfl rfl hk fun hnone hparts =>
    .unary (carries_rewrite operand (by simpa using hnone) hparts) op
  | .member base name, _, _, _, _, hk => .root heads r rfl rfl hk fun hnone hparts =>
    .member (carries_rewrite base (by simpa using hnone) hparts) name
  | .index base position, _, _, _, _, hk => .root heads r rfl rfl hk fun hnone hparts =>
    .index (carries_rewrite base (by simpa using hnone) (List.forall_mem_append.1 hparts).1) _ _
  | .call callee args, _, _, _, _, hk => .root heads r rfl rfl hk fun _ _ => .call callee _ _
  | .ternary cond thenExpr elseExpr, _, _, _, _, hk => .root heads r rfl rfl hk
      fun hnone hparts => by
    have hthen := (List.forall_mem_append.1 (List.forall_mem_append.1 hparts).1).2
    exact .ternary (carries_rewrite thenExpr (by simpa using hnone) hthen) _ _ _ _
  | .paren inner, _, _, _, _, hk => .root heads r rfl rfl hk fun hnone hparts =>
    .paren (carries_rewrite inner (by simpa using hnone) hparts)

/-! ## Replacing parts by others of their types -/

theorem typeOf_getD {e e' : Expr} {around : Surroundings} {parent : Option Nat} {k : Nat}
    {rest : List Visit}
    (hv : e.visits heads scope around parent k = ⟨e, k, parent, around, scope⟩ :: rest)
    (h : ∀ v ∈ e.visits heads scope around parent k, ∀ new, r v.ordinal = some new →
      d.typeOf scope new = d.typeOf scope v.expr)
    (hrest : (∀ v ∈ rest, ∀ new, r v.ordinal = some new →
      d.typeOf scope new = d.typeOf scope v.expr) → d.typeOf scope e' = d.typeOf scope e) :
    d.typeOf scope ((r k).getD e') = d.typeOf scope e := by
  rw [hv, List.forall_mem_cons] at h
  cases hk : r k with
  | none => exact hrest h.2
  | some new => exact h.1 new hk

/-- Where each expression that is replaced turns into one of its type, known
or not, what they are part of has the type that it had. -/
theorem typeOf_rewrite : (e : Expr) → {around : Surroundings} → {parent : Option Nat} →
    {k : Nat} → (∀ v ∈ e.visits heads scope around parent k, ∀ new, r v.ordinal = some new →
      d.typeOf scope new = d.typeOf scope v.expr) →
    d.typeOf scope (e.rewrite r k) = d.typeOf scope e
  | .ident _, _, _, _, h => typeOf_getD heads r rfl h fun _ => rfl
  | .literal _, _, _, _, h => typeOf_getD heads r rfl h fun _ => rfl
  | .binary op lhs rhs, _, _, _, h => typeOf_getD heads r rfl h fun hparts => by
    rw [List.forall_mem_append] at hparts
    simp only [typeOf, typeOf_rewrite lhs hparts.1, typeOf_rewrite rhs hparts.2]
  | .unary op operand, _, _, _, h => typeOf_getD heads r rfl h fun hparts => by
    simp only [typeOf, typeOf_rewrite operand hparts]
  | .member base name, _, _, _, h => typeOf_getD heads r rfl h fun hparts => by
    simp only [typeOf, typeOf_rewrite base hparts]
  | .index base position, _, _, _, h => typeOf_getD heads r rfl h fun hparts => by
    rw [List.forall_mem_append] at hparts
    simp only [typeOf, typeOf_rewrite base hparts.1]
  | .call _ _, _, _, _, h => typeOf_getD heads r rfl h fun _ => rfl
  | .ternary cond thenExpr elseExpr, _, _, _, h => typeOf_getD heads r rfl h fun hparts => by
    rw [List.forall_mem_append, List.forall_mem_append] at hparts
    simp only [typeOf, typeOf_rewrite thenExpr hparts.1.2]
  | .paren inner, _, _, _, h => typeOf_getD heads r rfl h fun hparts => by
    simp only [typeOf, typeOf_rewrite inner hparts]

end DeclaredTypes

/-- Replacing expressions changes nothing that declared types go by. -/
theorem Program.declaredTypes_rewrite (p : Program) (r : Replacement) :
    (p.rewrite r).declaredTypes = p.declaredTypes := by
  unfold declaredTypes DeclaredTypes.ofProgram
  rw [prototypes_rewrite]
  rfl

end ShaderMorph
