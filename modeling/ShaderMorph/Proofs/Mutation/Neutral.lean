-- Identities and types. An identity that suits a type has that type when it is
-- put around an expression that has it: the neutral number is of the kind of
-- the components, and sums and products with a scalar of that kind have the
-- type of the other operand. So what the expression is part of keeps its type,
-- too, and no name comes to stand for anything else.
import ShaderMorph.Proofs.Mutation.Carried
import ShaderMorph.Proofs.Mutation.Operands
import ShaderMorph.Proofs.Typing.Congruence

namespace ShaderMorph

/-! ## One identity -/

/-- What is made of numbers goes with one of its kind. -/
theorem DataType.exists_arithmetic {t : DataType} (h : t.isNumeric = true) :
    ∃ kind : ElementKind, t.element = some kind ∧ kind.isNumeric = true ∧
      t.arithmetic? (.scalar kind) = some t := by
  cases t with
  | scalar kind => exact ⟨kind, rfl, h, by simp [arithmetic?]⟩
  | vector elem width => exact ⟨elem, rfl, h, by simp [arithmetic?]⟩
  | matrix columns rows => exact ⟨.float, rfl, rfl, by simp [arithmetic?]⟩
  | _ => cases h

namespace Identity

theorem type_neutral {kind : ElementKind} (h : kind.isNumeric = true) (one : Bool) :
    (neutral (some kind) one).type = .scalar kind := by
  cases kind with
  | bool => cases h
  | _ => rfl

variable (d : DeclaredTypes) (scope : ScopeTree) (e : Expr) {t : Option DataType}
  {identity : Identity}

/-- An expression has its type in an identity that suits it. -/
theorem typeOf_wrap (ht : d.typeOf scope e = t) (h : identity.suits t = true) :
    d.typeOf scope (identity.wrap (t.bind DataType.element) e) = t := by
  have hsum : ∀ one op, op = .add ∨ op = .mul → t.any DataType.isNumeric = true →
      d.typeOf scope (.binary op (.paren e)
        (.literal (neutral (t.bind DataType.element) one))) = t := by
    intro one op hop hnumeric
    obtain ⟨u, rfl, hu⟩ := (Option.any_eq_true _ _).1 hnumeric
    obtain ⟨kind, helement, hkind, hsum⟩ := DataType.exists_arithmetic hu
    have hplain : op.isAssignment = false ∧ op.isComparison = false ∧ op.isLogical = false := by
      rcases hop with rfl | rfl <;> exact ⟨rfl, rfl, rfl⟩
    rcases hop with rfl | rfl <;>
      simp [DeclaredTypes.typeOf, hplain, ht, helement, type_neutral hkind, hsum]
  cases identity with
  | parenthesize => exact ht
  | addZero => exact hsum false .add (Or.inl rfl) h
  | mulOne => exact hsum true .mul (Or.inr rfl) h
  | doubleNegation =>
    obtain rfl := beq_iff_eq.1 h
    rfl
  | andTrue =>
    obtain rfl := beq_iff_eq.1 h
    rfl

/-- A node that an identity adds has the type of the expression in it, but for
a neutral number, which the identity suits as well. -/
theorem suits_nodes (ht : d.typeOf scope e = t) (h : identity.suits t = true) :
    ∀ n ∈ identity.nodes (t.bind DataType.element) e,
      d.typeOf scope n = t ∨ identity.suits (d.typeOf scope n) = true := by
  have hwrap := typeOf_wrap d scope e ht h
  have hneutral : ∀ one, t.any DataType.isNumeric = true → (d.typeOf scope
      (.literal (neutral (t.bind DataType.element) one))).any DataType.isNumeric = true := by
    intro one hnumeric
    obtain ⟨u, rfl, hu⟩ := (Option.any_eq_true _ _).1 hnumeric
    obtain ⟨kind, helement, hkind, -⟩ := DataType.exists_arithmetic hu
    simp [DeclaredTypes.typeOf, helement, type_neutral hkind, DataType.isNumeric, hkind]
  cases identity with
  | parenthesize => exact List.forall_mem_singleton.2 (Or.inl ht)
  | addZero =>
    simp only [nodes, List.forall_mem_cons, List.not_mem_nil, false_implies, implies_true, and_true]
    exact ⟨Or.inl hwrap, Or.inl ht, Or.inr (hneutral false h)⟩
  | mulOne =>
    simp only [nodes, List.forall_mem_cons, List.not_mem_nil, false_implies, implies_true, and_true]
    exact ⟨Or.inl hwrap, Or.inl ht, Or.inr (hneutral true h)⟩
  | doubleNegation =>
    obtain rfl := beq_iff_eq.1 h
    simp only [nodes, List.forall_mem_cons, List.not_mem_nil, false_implies, implies_true, and_true]
    exact ⟨Or.inl rfl, Or.inl rfl, Or.inl rfl, Or.inl ht⟩
  | andTrue =>
    obtain rfl := beq_iff_eq.1 h
    simp only [nodes, List.forall_mem_cons, List.not_mem_nil, false_implies, implies_true, and_true]
    exact ⟨Or.inl rfl, Or.inl rfl, Or.inl ht⟩

end Identity

/-! ## Programs -/

namespace MutationPoint

/-- The point at a visit, if there is one. -/
def ofVisit (switches : IdentitySwitches) (oracle : TypeOracle) (v : Visit) : MutationPoint :=
  ⟨v.ordinal, v.expr, oracle v.expr v.scope, Identity.legalFor switches (oracle v.expr v.scope)⟩

theorem exists_found {p : Program} {switches : IdentitySwitches} {oracle : TypeOracle}
    {m : MutationPoint} (h : m ∈ p.mutationPointsBy switches oracle) :
    ∃ v ∈ p.visits, isOpen p.version v = true ∧
      Identity.legalFor switches (oracle v.expr v.scope) ≠ [] ∧ m = ofVisit switches oracle v := by
  obtain ⟨v, hv, hm⟩ := List.mem_filterMap.1 h
  obtain ⟨hopen, hne, rfl⟩ := ofVisit?_eq_some.1 hm
  exact ⟨v, hv, hopen, hne, rfl⟩

/-- To wrap the expression of a visit is to rewrite the program there. -/
theorem wrapAt_visit {p : Program} {v : Visit} {place : Place Expr Program}
    (hv : v ∈ p.visits) (hplace : p.exprPlace? v.ordinal = some place) (m : MutationPoint)
    (identity : Identity) :
    m.wrapAt place identity = p.rewrite (Replacement.nothing.add v.ordinal
      (identity.wrap (m.type.bind DataType.element) v.expr)) := by
  rw [exprPlace?_visit hv] at hplace
  obtain rfl := Option.some.inj hplace
  rfl

/-- A program `p`, and the program `q` that it is with an identity around the
expression of a point. The new expression has the number and the type of the
old one. Each expression is found again in its place, in the scope in which it
was, and has the type that it had, known or not. -/
structure Neutral (m : MutationPoint) (identity : Identity) (p q : Program) : Prop where
  declared : q.declared = p.declared
  wrapped : ∃ v ∈ q.visits, v.ordinal = m.ordinal ∧
    v.expr = identity.wrap (m.type.bind DataType.element) m.snapshot ∧
      q.declaredTypes v.expr v.scope = m.type
  carried : ∀ w ∈ p.visits, ∃ w' ∈ q.visits,
    w.CarriedOver identity (m.type.bind DataType.element) m.ordinal m.snapshot w' ∧
      q.declaredTypes w'.expr w'.scope = p.declaredTypes w.expr w.scope

end MutationPoint

/-- Where one expression is put in an identity that has its type, every
expression has the type that it had. -/
theorem Visit.CarriedOver.type_eq {p : Program} {d : DeclaredTypes} {identity : Identity}
    {elem : Option ElementKind} {v w w' : Visit}
    (h : w.CarriedOver identity elem v.ordinal v.expr w') (hv : v ∈ p.visits) (hw : w ∈ p.visits)
    (hwrap : d.typeOf v.scope (identity.wrap elem v.expr) = d.typeOf v.scope v.expr) :
    d.typeOf w'.scope w'.expr = d.typeOf w.scope w.expr := by
  rw [h.scope, h.expr]
  split
  · rfl
  · suffices hparts : ∀ u ∈ w.expr.visits p.prototypes w.scope w.around w.parent w.ordinal,
        ∀ new, Replacement.nothing.add v.ordinal (identity.wrap elem v.expr) u.ordinal = some new →
          d.typeOf w.scope new = d.typeOf w.scope u.expr from
      d.typeOf_rewrite p.prototypes _ w.expr hparts
    intro u hu new hsome
    have hmem : u ∈ p.visits := by
      have hpart : Event.visit u ∈ (w.parts p.prototypes).map Event.visit := List.mem_map_of_mem hu
      exact Program.mem_visits.2 ((Program.walk_stretch (Program.mem_visits.1 hw)).subset hpart)
    obtain ⟨hordinal, rfl⟩ := Replacement.eq_of_nothing_add hsome
    obtain rfl := Program.visits_ext hmem hv hordinal
    have hscope : u.scope = w.scope := Visit.scope_of_parts (v := w) hu
    rw [← hscope]
    exact hwrap

/-- Wrapping changes the type of nothing, and what no name stands for. For each
point of a scan and each of its identities, the expression of the point has its
type in the identity, and every expression of the program is met again in its
place, in the same scope and with the same type. -/
theorem MutationPoint.wrap_neutral {p : Program} {switches : IdentitySwitches} {m : MutationPoint}
    {identity : Identity} (hm : m ∈ p.mutationPoints switches) (hi : identity ∈ m.identities) :
    ∃ place, p.exprPlace? m.ordinal = some place ∧
      m.Neutral identity p (m.wrapAt place identity) := by
  obtain ⟨v, hv, hopen, -, rfl⟩ := exists_found hm
  have hsuits : identity.suits (p.declaredTypes v.expr v.scope) = true := by
    rw [ofVisit, Identity.legalFor_eq, List.mem_filter, Bool.and_eq_true] at hi
    exact hi.2.2
  refine ⟨_, exprPlace?_visit hv, ?_⟩
  rw [wrapAt_visit hv (exprPlace?_visit hv)]
  have htype := Identity.typeOf_wrap (.ofProgram p) v.scope v.expr rfl hsuits
  obtain ⟨G⟩ := Program.visits_wrapping hv hopen identity
    ((p.declaredTypes v.expr v.scope).bind DataType.element)
  refine ⟨p.declared_rewrite _, ?_, fun w hw => ?_⟩
  · obtain ⟨w, hw, hordinal, hexpr, hscope⟩ := G.exists_wrapped
    refine ⟨w, hw, hordinal, hexpr, ?_⟩
    rw [p.declaredTypes_rewrite, hexpr, hscope]
    exact htype
  · obtain ⟨w', hw', hcarried⟩ := G.exists_carried hw
    refine ⟨w', hw', hcarried, ?_⟩
    rw [p.declaredTypes_rewrite]
    exact hcarried.type_eq (d := .ofProgram p) hv hw htype

/-- A program that assigns `m * v` to `v`, a vector of three floats. -/
def Program.product : Program :=
  ⟨.glsl440, [.globals (.matrix 3 3) [.plain "m"], .globals (.vector .float 3) [.plain "v"],
    .define .void "main" []
      [.expr (.assign (.ident "v") (.binary .mul (.ident "m") (.ident "v")))]]⟩

/-- The point at the matrix of that product. -/
def MutationPoint.factor : MutationPoint :=
  ⟨3, .ident "m", some (.matrix 3 3), [.parenthesize, .addZero, .mulOne]⟩

theorem MutationPoint.wrap_neutral_factor :
    factor ∈ Program.product.mutationPoints .all ∧ Identity.mulOne ∈ factor.identities ∧
      ∃ place, Program.product.exprPlace? 3 = some place ∧
        factor.Neutral .mulOne .product (factor.wrapAt place .mulOne) := by
  have hm : factor ∈ Program.product.mutationPoints .all := List.mem_of_getElem? (i := 1) rfl
  have hi : Identity.mulOne ∈ factor.identities := by decide
  exact ⟨hm, hi, wrap_neutral hm hi⟩

end ShaderMorph
