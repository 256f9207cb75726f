-- What becomes of a mutation point that is applied to some program, be it the
-- one that it was found in, that one after other points were applied, or any
-- other. A point is stale where no expression that is the same as its own has
-- its number; a point whose expression holds a literal that is not a number is
-- stale everywhere. Elsewhere one of its identities goes around the expression
-- with its number, wherever in the program that one stands.
import ShaderMorph.Proofs.Mutation.Neutral
import ShaderMorph.Proofs.Session.Freshness
import ShaderMorph.Shader.Build

namespace ShaderMorph

/-! ## What is the same as itself -/

namespace Expr

mutual

/-- An expression that is the same as itself has numbers for literals only. -/
theorem isNaN_of_same_self : (e : Expr) → e.same e = true → ∀ x ∈ e.preorder, x.isNaN = false
  | .ident _, _ => by simp [preorder, isNaN]
  | .literal (.float x), h => by
    rw [same, sameLiteral, Binary64.sameNumber, Bool.and_eq_true, Bool.and_eq_true,
      Bool.not_eq_true'] at h
    exact List.forall_mem_singleton.2 h.1.1
  | .literal (.bool _), _ => by simp [preorder, isNaN]
  | .literal (.int _), _ => by simp [preorder, isNaN]
  | .literal (.uint _), _ => by simp [preorder, isNaN]
  | .binary _ lhs rhs, h => by
    simp only [same, Bool.and_eq_true] at h
    simp only [preorder, List.forall_mem_cons, List.forall_mem_append]
    exact ⟨rfl, isNaN_of_same_self lhs h.1.2, isNaN_of_same_self rhs h.2⟩
  | .unary _ operand, h => by
    simp only [same, Bool.and_eq_true] at h
    exact List.forall_mem_cons.2 ⟨rfl, isNaN_of_same_self operand h.2⟩
  | .member base _, h => by
    simp only [same, Bool.and_eq_true] at h
    exact List.forall_mem_cons.2 ⟨rfl, isNaN_of_same_self base h.1⟩
  | .index base position, h => by
    simp only [same, Bool.and_eq_true] at h
    simp only [preorder, List.forall_mem_cons, List.forall_mem_append]
    exact ⟨rfl, isNaN_of_same_self base h.1, isNaN_of_same_self position h.2⟩
  | .call _ args, h => by
    simp only [same, Bool.and_eq_true] at h
    exact List.forall_mem_cons.2 ⟨rfl, isNaN_of_sameAll_self args h.2⟩
  | .ternary cond thenExpr elseExpr, h => by
    simp only [same, Bool.and_eq_true] at h
    simp only [preorder, List.forall_mem_cons, List.forall_mem_append]
    exact ⟨rfl, ⟨isNaN_of_same_self cond h.1.1, isNaN_of_same_self thenExpr h.1.2⟩,
      isNaN_of_same_self elseExpr h.2⟩
  | .paren inner, h => by
    rw [same] at h
    exact List.forall_mem_cons.2 ⟨rfl, isNaN_of_same_self inner h⟩

theorem isNaN_of_sameAll_self : (es : List Expr) → sameAll es es = true →
    ∀ x ∈ preorderAll es, x.isNaN = false
  | [], _ => by simp [preorderAll]
  | e :: es, h => by
    simp only [sameAll, Bool.and_eq_true] at h
    simp only [preorderAll, List.forall_mem_append]
    exact ⟨isNaN_of_same_self e h.1, isNaN_of_sameAll_self es h.2⟩

end

theorem same_self_iff (e : Expr) : e.same e = true ↔ ∀ x ∈ e.preorder, x.isNaN = false :=
  ⟨e.isNaN_of_same_self, e.same_self⟩

end Expr

/-! ## The choice -/

/-- A source within its bounds chooses one of the candidates, if there are any. -/
theorem RandomSource.StaysBelow.choose_mem {σ : Type} [RandomSource σ] {source : σ}
    (h : StaysBelow source) {candidates : List α} (hne : candidates ≠ []) :
    ∃ x ∈ candidates, ∃ after, RandomSource.choose source candidates = (.ok (some x), after) := by
  obtain ⟨i, after, hi, hnext, -⟩ := h.ask (List.length_pos_iff.2 hne)
  refine ⟨candidates[i], List.getElem_mem hi, after, ?_⟩
  unfold RandomSource.choose
  simp [hne, hnext, hi, Except.map]

/-! ## Points -/

namespace MutationPoint

variable {σ : Type} [RandomSource σ] {p q : Program} {switches : IdentitySwitches}
  {oracle : TypeOracle} {m : MutationPoint} {source : σ} {v : Visit}

/-- Applied to `p`, the point puts one of its identities around the expression
that is visited, and changes nothing else. -/
def WrapsAt (m : MutationPoint) (p : Program) (source : σ) (v : Visit) : Prop :=
  ∃ identity ∈ m.identities, ∃ after,
    m.apply p source = (.ok (p.rewrite (Replacement.nothing.add v.ordinal
      (identity.wrap (m.type.bind DataType.element) v.expr))), after)

/-- A point is applied where an expression with its number is the same as its
own. -/
theorem wrapsAt_of_same (hne : m.identities ≠ []) (hsource : RandomSource.StaysBelow source)
    (hv : v ∈ p.visits) (hordinal : v.ordinal = m.ordinal)
    (hsame : v.expr.same m.snapshot = true) : m.WrapsAt p source v := by
  have hplace : m.place? p =
      some ⟨v.expr, fun new => p.rewrite (Replacement.nothing.add v.ordinal new)⟩ := by
    simp [place?, ← hordinal, exprPlace?_visit hv, hsame]
  obtain ⟨identity, hidentity, after, hchoice⟩ := hsource.choose_mem hne
  refine ⟨identity, hidentity, after, ?_⟩
  rw [apply, hplace]
  simp only [hchoice, Except.map, Option.getD_some, wrapAt]

/-- Where an expression is found by its number, it is visited under that
number. -/
theorem exists_visit_of_place {k : Nat} {place : Place Expr Program}
    (h : p.exprPlace? k = some place) : ∃ v ∈ p.visits, v.ordinal = k := by
  have hsearch := p.exprPlace?_rewrite (r := .nothing) (k := k) fun _ _ => rfl
  rw [p.rewrite_nothing, h] at hsearch
  obtain ⟨e, he, -⟩ := Option.map_eq_some_iff.1 hsearch.symm
  have hlt : k < p.visits.length := by
    rw [← List.length_map (·.expr), p.visits_expr]
    exact (List.getElem?_eq_some_iff.1 he).1
  exact ⟨p.visits[k], List.getElem_mem hlt, Program.ordinal_getElem hlt⟩

/-- A point is stale where no expression with its number is the same as its
own. The source is not asked then. -/
theorem apply_of_not_same (h : ∀ v ∈ p.visits, v.ordinal = m.ordinal →
    v.expr.same m.snapshot = false) (source : σ) :
    m.apply p source = (.error (.stalePoint m.ordinal m.text), source) := by
  have hplace : m.place? p = none := by
    unfold place?
    cases hfound : p.exprPlace? m.ordinal with
    | none => rfl
    | some place =>
      obtain ⟨v, hv, hordinal⟩ := exists_visit_of_place hfound
      rw [← hordinal, exprPlace?_visit hv, Option.some.injEq] at hfound
      subst hfound
      simp [h v hv hordinal]
  rw [apply, hplace]

theorem identities_found (hm : m ∈ q.mutationPointsBy switches oracle) :
    m.identities = Identity.legalFor switches m.type ∧ m.identities ≠ [] := by
  obtain ⟨v, -, -, hne, rfl⟩ := exists_found hm
  exact ⟨rfl, hne⟩

/-! ## The program it was found in -/

/-- A point that is applied to the program that it was found in puts one of its
identities around its expression, when all literals in there are numbers. When
one of them is not a number the point is stale from the start. -/
theorem apply_found (hm : m ∈ p.mutationPointsBy switches oracle)
    (hsource : RandomSource.StaysBelow source) :
    ∃ v ∈ p.visits, v.ordinal = m.ordinal ∧ v.expr = m.snapshot ∧
      ((∀ x ∈ m.snapshot.preorder, x.isNaN = false) → m.WrapsAt p source v) ∧
      ((∃ x ∈ m.snapshot.preorder, x.isNaN = true) →
        m.apply p source = (.error (.stalePoint m.ordinal m.text), source)) := by
  obtain ⟨v, hv, -, hordinal, hsnapshot⟩ := exists_visit hm
  refine ⟨v, hv, hordinal.symm, hsnapshot.symm, ?_, ?_⟩
  · intro hnumbers
    refine wrapsAt_of_same (identities_found hm).2 hsource hv hordinal.symm ?_
    rw [← hsnapshot]
    exact m.snapshot.same_self_iff.2 hnumbers
  · rintro ⟨x, hx, hnan⟩
    refine apply_of_not_same (fun w hw hnumber => Bool.eq_false_iff.2 fun hsame => ?_) source
    obtain rfl := Program.visits_ext hw hv (hnumber.trans hordinal)
    rw [← hsnapshot] at hsame
    exact Bool.false_ne_true ((m.snapshot.same_self_iff.1 hsame x hx).symm.trans hnan)

end MutationPoint

/-- A float that is read where it is assigned to itself, and a number that is
negated in front of that. -/
def Program.selfAssigned : Program :=
  ⟨.glsl440, [.define .void "main" [] [.declare (.scalar .float) "x", .expr (.unary .neg (.int 1)),
    .expr (.assign (.ident "x") (.ident "x"))]]⟩

/-- The same program, with the number in brackets. -/
def Program.numberBracketed : Program :=
  ⟨.glsl440, [.define .void "main" [] [.declare (.scalar .float) "x",
    .expr (.unary .neg (.paren (.int 1))), .expr (.assign (.ident "x") (.ident "x"))]]⟩

/-- A float that is assigned a number that is none, negated. -/
def Program.assignedNaN : Program :=
  ⟨.glsl440, [.define .void "main" [] [.declare (.scalar .float) "x",
    .expr (.assign (.ident "x") (.unary .neg (.float .nan)))]]⟩

namespace MutationPoint

/-- The number. -/
def negatedNumber : MutationPoint :=
  ⟨1, .int 1, some (.scalar .int), [.parenthesize, .addZero, .mulOne]⟩

/-- The float where it is read. -/
def readFloat : MutationPoint :=
  ⟨4, .ident "x", some (.scalar .float), [.parenthesize, .addZero, .mulOne]⟩

theorem found_selfAssigned :
    Program.selfAssigned.mutationPoints .all = [negatedNumber, readFloat] := rfl

theorem apply_found_number :
    ∃ v ∈ Program.selfAssigned.visits, v.ordinal = 1 ∧ v.expr = .int 1 ∧
      negatedNumber.WrapsAt .selfAssigned (⟨⟩ : ZeroSource) v := by
  have hm : negatedNumber ∈ Program.selfAssigned.mutationPoints .all := by
    rw [found_selfAssigned]
    exact List.mem_cons_self
  obtain ⟨v, hv, hordinal, hexpr, happly, -⟩ := apply_found hm (Session.staysBelow_zero _)
  exact ⟨v, hv, hordinal, hexpr, happly (by decide)⟩

/-- A point that is stale in the program that it was found in. -/
theorem literalNaN_stale :
    ∃ m ∈ Program.assignedNaN.mutationPoints .all, RandomSource.StaysBelow (⟨⟩ : ZeroSource) ∧
      m.apply .assignedNaN (⟨⟩ : ZeroSource) = (.error (.stalePoint 3 "NaN"), ⟨⟩) := by
  refine ⟨⟨3, .float .nan, some (.scalar .float), [.parenthesize, .addZero, .mulOne]⟩, ?_,
    Session.staysBelow_zero _, ?_⟩
  · exact List.mem_of_getElem? (i := 1) rfl
  · rfl

/-! ## Any program -/

variable {σ : Type} [RandomSource σ] {q : Program} {switches : IdentitySwitches}
  {oracle : TypeOracle} {m : MutationPoint} {source : σ}

/-- A point that was found in some program, applied to any other. Either it is
stale there, as no expression with its number is the same as its own, or it puts
one of its identities around that expression. That is a point of the other
program, too, and one of the same type, just when it stands where it may be
wrapped and the oracle there gives it that type. -/
theorem apply_elsewhere (hm : m ∈ q.mutationPointsBy switches oracle) (p : Program)
    (hsource : RandomSource.StaysBelow source) :
    ((∀ v ∈ p.visits, v.ordinal = m.ordinal → v.expr.same m.snapshot = false) ∧
        m.apply p source = (.error (.stalePoint m.ordinal m.text), source)) ∨
      ∃ v ∈ p.visits, v.ordinal = m.ordinal ∧ v.expr.same m.snapshot = true ∧
        m.WrapsAt p source v ∧
        ∀ oracle', (∃ n ∈ p.mutationPointsBy switches oracle',
            n.ordinal = m.ordinal ∧ n.type = m.type) ↔
          isOpen p.version v = true ∧ oracle' v.expr v.scope = m.type := by
  by_cases h : ∀ v ∈ p.visits, v.ordinal = m.ordinal → v.expr.same m.snapshot = false
  · exact Or.inl ⟨h, apply_of_not_same h source⟩
  · push Not at h
    obtain ⟨v, hv, hordinal, hsame⟩ := h
    have hsame := Bool.of_not_eq_false hsame
    obtain ⟨hlegal, hne⟩ := identities_found hm
    refine Or.inr ⟨v, hv, hordinal, hsame, wrapsAt_of_same hne hsource hv hordinal hsame, ?_⟩
    intro oracle'
    constructor
    · rintro ⟨n, hn, hnumber, htype⟩
      obtain ⟨w, hw, hopen, -, rfl⟩ := exists_found hn
      obtain rfl := Program.visits_ext hw hv (hnumber.trans hordinal.symm)
      exact ⟨hopen, htype⟩
    · rintro ⟨hopen, htype⟩
      -- the identities that suit the type were some where the point was found
      rw [hlegal, ← htype] at hne
      exact ⟨_, List.mem_filterMap.2 ⟨v, hv, ofVisit?_eq_some.2 ⟨hopen, hne, rfl⟩⟩, hordinal,
        htype⟩

theorem apply_elsewhere_brackets :
    ∃ v ∈ Program.numberBracketed.visits, v.ordinal = 4 ∧ v.expr = .ident "x" ∧
      readFloat.WrapsAt .numberBracketed (⟨⟩ : ZeroSource) v := by
  have hm : readFloat ∈ Program.selfAssigned.mutationPoints .all := by
    rw [found_selfAssigned]
    exact List.mem_cons_of_mem _ List.mem_cons_self
  have hthere : ∃ v ∈ Program.numberBracketed.visits, v.ordinal = 4 ∧
      v.expr.same (.ident "x") = true := by decide +kernel
  obtain ⟨w, hw, hordinal, hsame⟩ := hthere
  rcases apply_elsewhere hm .numberBracketed (Session.staysBelow_zero ⟨⟩) with
    ⟨hnone, -⟩ | ⟨v, hv, hnumber, hequal, hwraps, -⟩
  · exact absurd (hnone w hw hordinal) (by simp [readFloat, hsame])
  · refine ⟨v, hv, hnumber, ?_, hwraps⟩
    generalize v.expr = e at hequal ⊢
    cases e <;> simp_all [Expr.same, readFloat]

/-- With the number in brackets, the target of the assignment has the number
that the float had where it is read. So the float, found before that, is put
around the target, which no scan reports. -/
theorem readFloat_around_target :
    negatedNumber ∈ Program.selfAssigned.mutationPoints .all ∧
      readFloat ∈ Program.selfAssigned.mutationPoints .all ∧
      RandomSource.StaysBelow (⟨⟩ : ZeroSource) ∧
      negatedNumber.apply .selfAssigned (⟨⟩ : ZeroSource) = (.ok .numberBracketed, ⟨⟩) ∧
      readFloat.apply .numberBracketed (⟨⟩ : ZeroSource) =
        (.ok ⟨.glsl440, [.define .void "main" [] [.declare (.scalar .float) "x",
          .expr (.unary .neg (.paren (.int 1))),
          .expr (.assign (.paren (.ident "x")) (.ident "x"))]]⟩, ⟨⟩) ∧
      ∀ n ∈ Program.numberBracketed.mutationPoints .all, n.ordinal ≠ readFloat.ordinal := by
  rw [found_selfAssigned]
  exact ⟨List.mem_cons_self, List.mem_cons_of_mem _ List.mem_cons_self,
    Session.staysBelow_zero _, rfl, rfl, by decide +kernel⟩

end MutationPoint

end ShaderMorph
