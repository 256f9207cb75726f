-- What applying mutation points makes of a program. One application puts one
-- expression, which stands where it may be wrapped, into an identity and
-- leaves all else; a session that only wraps does so again and again.
import ShaderMorph.Mutation.Point
import ShaderMorph.Proofs.Address.Search
import ShaderMorph.Proofs.Session.Runs
import ShaderMorph.Proofs.Walk.Numbering

namespace ShaderMorph

/-! ## One application -/

/-- A program, and the same one with an expression that may be wrapped in an
identity. -/
inductive Program.Wraps (p : Program) : Program → Prop
  | mk (v : Visit) (identity : Identity) (elem : Option ElementKind) : v ∈ p.visits →
    MutationPoint.isOpen p.version v = true →
      Wraps p (p.rewrite (Replacement.nothing.add v.ordinal (identity.wrap elem v.expr)))

namespace MutationPoint

variable {p p' : Program} {switches : IdentitySwitches} {oracle : TypeOracle} {m : MutationPoint}

/-- A point is found at a visit where wrapping is allowed. -/
theorem exists_visit (h : m ∈ p.mutationPointsBy switches oracle) :
    ∃ v ∈ p.visits, isOpen p.version v = true ∧ m.ordinal = v.ordinal ∧ m.snapshot = v.expr := by
  obtain ⟨v, hv, hm⟩ := List.mem_filterMap.1 h
  refine ⟨v, hv, ?_⟩
  unfold ofVisit? at hm
  split at hm
  · next hopen =>
    dsimp only at hm
    split at hm
    · cases hm
    · cases hm
      exact ⟨hopen, rfl, rfl⟩
  · cases hm

/-- The place of the expression of a visit. -/
theorem exprPlace?_visit {v : Visit} (hv : v ∈ p.visits) :
    p.exprPlace? v.ordinal =
      some ⟨v.expr, fun new => p.rewrite (Replacement.nothing.add v.ordinal new)⟩ := by
  have hplace := p.exprPlace?_rewrite (r := .nothing) (k := v.ordinal) fun _ _ => rfl
  rw [p.rewrite_nothing, Program.exprs_ordinal hv, Option.map_some, Expr.rewrite_nothing] at hplace
  exact hplace

/-- When a point that was found is applied, its expression is wrapped. -/
theorem wraps_of_apply {σ : Type} [RandomSource σ] {source : σ}
    (h : m ∈ p.mutationPointsBy switches oracle) (happly : (m.apply p source).1 = .ok p') :
    p.Wraps p' := by
  obtain ⟨v, hv, hopen, hordinal, -⟩ := exists_visit h
  unfold apply at happly
  cases hplace : m.place? p with
  | none =>
    rw [hplace] at happly
    cases happly
  | some place =>
    have hfound : place =
        ⟨v.expr, fun new => p.rewrite (Replacement.nothing.add v.ordinal new)⟩ := by
      unfold place? at hplace
      rw [hordinal, exprPlace?_visit hv, Option.bind_eq_bind, Option.bind_some] at hplace
      split at hplace
      · exact (Option.some.inj hplace).symm
      · cases hplace
    rw [hplace] at happly
    dsimp only at happly
    cases hchoice : (RandomSource.choose source m.identities).1 with
    | error b =>
      rw [hchoice] at happly
      cases happly
    | ok identity =>
      rw [hchoice] at happly
      obtain rfl := Except.ok.inj happly
      subst hfound
      exact .mk v _ _ hv hopen

end MutationPoint

/-! ## Many applications -/

/-- A program, and what becomes of it when mutation points are applied one
after the other, each of them found by a scan of the program as it then is.
The sources of the choices may be any. -/
inductive Program.Fuzzes (switches : IdentitySwitches) : Program → Program → Prop
  | none (p : Program) : Fuzzes switches p p
  | step {σ : Type} [RandomSource σ] {p q r : Program} (m : MutationPoint) (source : σ) :
    m ∈ p.mutationPoints switches → (m.apply p source).1 = .ok q → Fuzzes switches q r →
      Fuzzes switches p r

/-- What every wrapping keeps, any number of applications keep. -/
theorem Program.Fuzzes.keeps {switches : IdentitySwitches} {I : Program → Prop}
    (hstep : ∀ p q : Program, I p → p.Wraps q → I q) {p q : Program} (h : p.Fuzzes switches q)
    (hp : I p) : I q := by
  induction h with
  | none p => exact hp
  | step m source hm happly _ ih =>
    exact ih (hstep _ _ hp (MutationPoint.wraps_of_apply hm happly))

/-- What every wrapping keeps, a session that only wraps keeps. -/
theorem Session.run_keeps_of_wraps {σ : Type} [RandomSource σ] {s : Session σ}
    {switches : IdentitySwitches} (hs : s.finders = [.mutation switches]) {I : Program → Prop}
    (hstep : ∀ p q : Program, I p → p.Wraps q → I q) {p : Program} (hp : I p) (steps : Nat) :
    I (s.run steps p).program := by
  refine run_keeps ?_ hp steps
  intro q changed o source after hq ho happly
  have hscan : s.scan q = (q.mutationPoints switches).map .mutation := by
    unfold scan
    rw [hs]
    simp [Finder.find]
  rw [hscan] at ho
  obtain ⟨m, hm, rfl⟩ := List.mem_map.1 ho
  exact hstep _ _ hq (MutationPoint.wraps_of_apply hm (congrArg Prod.fst happly))

end ShaderMorph
