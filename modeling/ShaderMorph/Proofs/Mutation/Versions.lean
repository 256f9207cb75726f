-- Mutation points under two versions. A version has a say in four ways: which
-- loop headers and which initializers have to stay as they are, whether a scalar
-- can be swizzled, and through that the types of expressions and the identities
-- that suit. Each of them only adds points, or identities to a point, as the
-- version asks for less. So no version has a point that version 440 has not.
import ShaderMorph.Proofs.Mutation.Operands
import ShaderMorph.Proofs.Walk.Loosened
import ShaderMorph.Shader.Build

namespace ShaderMorph

/-! ## Types -/

/-- The same functions, and scalars can be swizzled in `d'` where they can in
`d`. -/
structure DeclaredTypes.Below (d d' : DeclaredTypes) : Prop where
  heads : d'.heads = d.heads
  swizzles : d.scalarSwizzles = true → d'.scalarSwizzles = true

theorem DataType.memberOf?_below {a b : Bool} (h : a = true → b = true) {base t : DataType}
    {name : String} (ht : base.memberOf? a name = some t) : base.memberOf? b name = some t := by
  cases base with
  | scalar elem =>
    cases a with
    | false => cases ht
    | true =>
      rw [h rfl]
      exact ht
  | _ => exact ht

namespace DeclaredTypes

variable {d d' : DeclaredTypes} {scope : ScopeTree}

/-- What has a type keeps it where more can be typed. -/
theorem typeOf_below (h : d.Below d') : (e : Expr) → {t : DataType} →
    d.typeOf scope e = some t → d'.typeOf scope e = some t
  | .ident _, _, ht => ht
  | .literal _, _, ht => ht
  | .paren inner, _, ht => typeOf_below h inner ht
  | .member base name, _, ht => by
    obtain ⟨u, hu, ht⟩ := Option.bind_eq_some_iff.1 ht
    exact Option.bind_eq_some_iff.2
      ⟨u, typeOf_below h base hu, DataType.memberOf?_below h.swizzles ht⟩
  | .index base position, _, ht => by
    obtain ⟨u, hu, ht⟩ := Option.bind_eq_some_iff.1 ht
    exact Option.bind_eq_some_iff.2 ⟨u, typeOf_below h base hu, ht⟩
  | .call callee args, _, ht => by
    simp only [typeOf, returnType?, h.heads] at ht ⊢
    exact ht
  | .binary op lhs rhs, t, ht => by
    have hsum : (do (← d.typeOf scope lhs).arithmetic? (← d.typeOf scope rhs)) = some t →
        (do (← d'.typeOf scope lhs).arithmetic? (← d'.typeOf scope rhs)) = some t := by
      intro ht
      obtain ⟨u, hu, ht⟩ := Option.bind_eq_some_iff.1 ht
      obtain ⟨w, hw, ht⟩ := Option.bind_eq_some_iff.1 ht
      exact Option.bind_eq_some_iff.2 ⟨u, typeOf_below h lhs hu,
        Option.bind_eq_some_iff.2 ⟨w, typeOf_below h rhs hw, ht⟩⟩
    unfold typeOf at ht ⊢
    split at ht
    · next hassign =>
      rw [if_pos hassign]
      exact typeOf_below h lhs ht
    · next hassign =>
      rw [if_neg hassign]
      split at ht
      · next hbool =>
        rw [if_pos hbool]
        exact ht
      · next hbool =>
        rw [if_neg hbool]
        cases op with
        | comma => exact typeOf_below h rhs ht
        | shl => exact typeOf_below h lhs ht
        | shr => exact typeOf_below h lhs ht
        | _ => exact hsum ht
  | .unary op operand, _, ht => by
    unfold typeOf at ht ⊢
    split at ht
    · next hnot =>
      rw [if_pos hnot]
      exact ht
    · next hnot =>
      rw [if_neg hnot]
      exact typeOf_below h operand ht
  | .ternary _ thenExpr _, _, ht => typeOf_below h thenExpr ht

end DeclaredTypes

/-- Declarations tell no fewer types under a version that asks for less. -/
theorem Version.Stricter.below {v w : Version} (h : v.Stricter w)
    (declarations : List Declaration) :
    (DeclaredTypes.ofProgram ⟨v, declarations⟩).Below (.ofProgram ⟨w, declarations⟩) :=
  ⟨rfl, h.swizzles⟩

/-! ## Identities -/

/-- What suits a type that is not known suits all types. -/
theorem Identity.suits_of_known {type type' : Option DataType}
    (h : ∀ t, type = some t → type' = some t) {i : Identity} (hi : i.suits type = true) :
    i.suits type' = true := by
  cases type with
  | none => cases i <;> first | rfl | cases hi
  | some t =>
    rw [h t rfl]
    exact hi

theorem Identity.legalFor_subset (switches : IdentitySwitches) {type type' : Option DataType}
    (h : ∀ t, type = some t → type' = some t) :
    legalFor switches type ⊆ legalFor switches type' := by
  intro i hi
  rw [mem_legalFor] at hi ⊢
  exact ⟨hi.1, suits_of_known h hi.2⟩

/-! ## Points -/

namespace MutationPoint

/-- The same expression in the same place: in `n` it has the identities that it
has in `m`, and the type, where `m` knows it. -/
structure Within (m n : MutationPoint) : Prop where
  ordinal : n.ordinal = m.ordinal
  snapshot : n.snapshot = m.snapshot
  identities : m.identities ⊆ n.identities
  type : ∀ t, m.type = some t → n.type = some t

variable {v w : Version} {visit visit' : Visit}

theorem isOpen_freed (h : v.Stricter w) (hv : visit.Freed visit') (hopen : isOpen v visit = true) :
    isOpen w visit' = true := by
  have hsame := hv.around.same
  have hwritten : visit'.around.isWritten = visit.around.isWritten :=
    congrArg (·.isWritten) hsame
  have hheader : visit'.around.forHeader = visit.around.forHeader :=
    congrArg (·.forHeader) hsame
  simp only [isOpen, Visit.isOperand, Bool.and_eq_true, Bool.not_eq_true', hv.parent, hwritten,
    hheader] at hopen ⊢
  obtain ⟨⟨⟨hoperand, hread⟩, hconst⟩, hloop⟩ := hopen
  refine ⟨⟨⟨hoperand, hread⟩, ?_⟩, ?_⟩
  · exact Bool.eq_false_iff.2 fun hb => Bool.false_ne_true (hconst.symm.trans (hv.around.const hb))
  · rw [Bool.and_eq_false_iff] at hloop ⊢
    refine hloop.imp_left fun hv => Bool.eq_false_iff.2 fun hw => ?_
    exact Bool.false_ne_true (hv.symm.trans (h.loops hw))

/-- A point is one under a version that asks for less, too. -/
theorem ofVisit?_freed {switches : IdentitySwitches} {oracle oracle' : TypeOracle}
    (h : v.Stricter w) (hv : visit.Freed visit')
    (ht : ∀ t, oracle visit.expr visit.scope = some t → oracle' visit.expr visit.scope = some t)
    {m : MutationPoint} (hm : ofVisit? switches oracle v visit = some m) :
    ∃ n, ofVisit? switches oracle' w visit' = some n ∧ m.Within n := by
  obtain ⟨hopen, hne, rfl⟩ := ofVisit?_eq_some.1 hm
  have hsubset := Identity.legalFor_subset switches ht
  refine ⟨_, ofVisit?_eq_some.2 ⟨isOpen_freed h hv hopen, ?_, rfl⟩, ?_⟩
  · rw [hv.expr, hv.scope]
    exact fun hnil => hne (List.subset_nil.1 (hnil ▸ hsubset))
  · refine ⟨hv.ordinal, hv.expr, ?_, ?_⟩
    · rw [hv.expr, hv.scope]
      exact hsubset
    · rw [hv.expr, hv.scope]
      exact ht

/-- The points of visits are found again, in order, among those of visits where
less has to stay as it is. -/
theorem filterMap_freed {switches : IdentitySwitches} {oracle oracle' : TypeOracle}
    (h : v.Stricter w) (ht : ∀ e scope t, oracle e scope = some t → oracle' e scope = some t)
    {visits visits' : List Visit} (hvs : List.Forall₂ Visit.Freed visits visits') :
    ∃ kept, kept.Sublist (visits'.filterMap (ofVisit? switches oracle' w)) ∧
      List.Forall₂ Within (visits.filterMap (ofVisit? switches oracle v)) kept := by
  induction hvs with
  | nil => exact ⟨[], List.Sublist.refl _, .nil⟩
  | @cons visit visit' visits visits' hv _ ih =>
    obtain ⟨kept, hsub, hkept⟩ := ih
    cases hm : ofVisit? switches oracle v visit with
    | none =>
      refine ⟨kept, hsub.trans ?_, by rwa [List.filterMap_cons_none hm]⟩
      exact (List.sublist_cons_self visit' visits').filterMap _
    | some m =>
      obtain ⟨n, hn, hwithin⟩ : ∃ n, ofVisit? switches oracle' w visit' = some n ∧ m.Within n :=
        ofVisit?_freed h hv (ht _ _) hm
      refine ⟨n :: kept, ?_, ?_⟩
      · rw [List.filterMap_cons_some hn]
        exact hsub.cons_cons n
      · rw [List.filterMap_cons_some hm]
        exact .cons hwithin hkept

end MutationPoint

namespace Program

/-- The points under a version are found again, in order, under one that asks
for less. -/
theorem mutationPoints_stricter {v w : Version} (h : v.Stricter w)
    (declarations : List Declaration) (switches : IdentitySwitches) :
    ∃ kept, kept.Sublist ((Program.mk w declarations).mutationPoints switches) ∧
      List.Forall₂ MutationPoint.Within ((Program.mk v declarations).mutationPoints switches)
        kept :=
  MutationPoint.filterMap_freed h
    (fun e _ _ ht => DeclaredTypes.typeOf_below (h.below declarations) e ht)
    (visits_freed h declarations)

/-- No version adds a point. The points of a list of declarations under any
version are found again under version 440, in order, with the same numbers and
the same expressions. There they have all the identities that they had, and the
type, where it was known. -/
theorem mutationPoints_within_glsl440 (declarations : List Declaration) (version : Version)
    (switches : IdentitySwitches) :
    ∃ kept, kept.Sublist ((Program.mk .glsl440 declarations).mutationPoints switches) ∧
      List.Forall₂ MutationPoint.Within
        ((Program.mk version declarations).mutationPoints switches) kept :=
  mutationPoints_stricter version.stricter_glsl440 declarations switches

end Program

end ShaderMorph
