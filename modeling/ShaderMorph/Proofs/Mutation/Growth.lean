-- Scans of a program in which a point was wrapped. Every point is found again
-- in its place, with the same type and the same identities, and each node that
-- the identity added is a point of its own; the point that was wrapped is not
-- found as it was. So the points never run out, and a session that wraps goes
-- on for as many steps as it may take.
import ShaderMorph.Proofs.Mutation.Neutral
import ShaderMorph.Proofs.Session.Freshness

namespace ShaderMorph

/-! ## Texts -/

/-- An identity is longer than the expression in it. -/
theorem Identity.length_text_wrap (identity : Identity) (elem : Option ElementKind) (e : Expr) :
    e.text.length < (identity.wrap elem e).text.length := by
  have hparen : ∀ f : Expr, (Expr.paren f).text.length = f.text.length + 2 := by
    intro f
    have hbrackets : "(".length = 1 ∧ ")".length = 1 := by decide
    simp only [Expr.text, String.length_append]
    omega
  have hinner : ∀ f : Expr, f.text.length ≤ (f.bracketed f.text).length := by
    intro f
    unfold Expr.bracketed
    split
    · simp only [String.length_append]
      omega
    · exact Nat.le_refl _
  have hnot : ∀ f : Expr, f.text.length ≤ (Expr.unary .not f).text.length := by
    intro f
    have hf := hinner f
    simp only [Expr.text, UnaryOp.isPostfix, Bool.false_eq_true, if_false, String.length_append]
    omega
  have hgrown := hparen e
  cases identity with
  | parenthesize =>
    rw [wrap]
    omega
  | addZero =>
    have hlhs := hinner (.paren e)
    rw [wrap, Expr.text]
    simp only [String.length_append]
    omega
  | mulOne =>
    have hlhs := hinner (.paren e)
    rw [wrap, Expr.text]
    simp only [String.length_append]
    omega
  | doubleNegation =>
    have hfirst := hnot (.paren e)
    have hsecond := hnot (.paren (.unary .not (.paren e)))
    have hbetween := hparen (.unary .not (.paren e))
    rw [wrap]
    omega
  | andTrue =>
    have hrhs := hinner (.paren e)
    rw [wrap, Expr.text]
    simp only [String.length_append]
    omega

/-! ## Choices -/

/-- What a source chooses is one of the candidates. -/
theorem RandomSource.mem_of_choose {σ : Type} [RandomSource σ] {source : σ} {candidates : List α}
    {x : α} (h : (choose source candidates).1 = .ok (some x)) : x ∈ candidates := by
  unfold choose at h
  split at h
  · cases h
  · cases hnext : (nextInt source candidates.length).1 with
    | error b => simp [hnext, Except.map] at h
    | ok i =>
      simp only [hnext, Except.map, Except.ok.injEq] at h
      exact List.mem_of_getElem? h

namespace MutationPoint

/-! ## The scan -/

/-- A point as it is found when the expression of `m` is put in an identity. -/
def carried (m : MutationPoint) (identity : Identity) (n : MutationPoint) : MutationPoint :=
  { n with
    ordinal := identity.shift m.ordinal m.snapshot.size n.ordinal
    snapshot := if n.ordinal = m.ordinal then n.snapshot else n.snapshot.rewrite
      (Replacement.nothing.add m.ordinal
        (identity.wrap (m.type.bind DataType.element) m.snapshot)) n.ordinal }

/-- What a scan finds before the expression of `m` is put in an identity, and
what it finds after that: the same points in their places, and one at each node
of the identity. Nothing is found under the number of `m` that has its text. -/
structure Grows (m : MutationPoint) (identity : Identity) (found found' : List MutationPoint) :
    Prop where
  points : ∃ added, found'.Perm (found.map (m.carried identity) ++ added) ∧
    added.length = identity.added ∧ added.map (·.ordinal) =
      List.range' m.ordinal identity.lead ++
        List.range' (m.ordinal + identity.lead + m.snapshot.size) identity.trail
  gone : ∀ n ∈ found', ¬(n.ordinal = m.ordinal ∧ n.text = m.text)

variable {switches : IdentitySwitches} {oracle : TypeOracle} {version : Version}

/-- A visit that becomes another one of the same type has its point carried
over. -/
theorem ofVisit?_carried {m : MutationPoint} {identity : Identity} {w w' : Visit}
    (h : w.CarriedOver identity (m.type.bind DataType.element) m.ordinal m.snapshot w')
    (htype : oracle w'.expr w'.scope = oracle w.expr w.scope) :
    ofVisit? switches oracle version w' =
      (ofVisit? switches oracle version w).map (m.carried identity) := by
  have hopen : isOpen version w' = isOpen version w := by
    simp only [isOpen, h.around, h.isOperand]
  unfold ofVisit?
  rw [hopen, htype]
  split
  · dsimp only
    split
    · rfl
    · simp only [Option.map_some, carried, h.ordinal, h.expr]
  · rfl

theorem filterMap_carried {m : MutationPoint} {identity : Identity} {ws ws' : List Visit}
    (h : List.Forall₂ (fun w w' =>
      w.CarriedOver identity (m.type.bind DataType.element) m.ordinal m.snapshot w' ∧
        oracle w'.expr w'.scope = oracle w.expr w.scope) ws ws') :
    ws'.filterMap (ofVisit? switches oracle version) =
      (ws.filterMap (ofVisit? switches oracle version)).map (m.carried identity) := by
  induction h with
  | nil => rfl
  | cons hw _ ih =>
    rw [List.filterMap_cons, List.filterMap_cons, ofVisit?_carried hw.1 hw.2]
    cases hp : ofVisit? switches oracle version _ <;> simp [ih]

/-- Where each visit is a point, the points have the numbers of the visits. -/
theorem filterMap_ordinal {ws : List Visit}
    (h : ∀ w ∈ ws, isOpen version w = true ∧
      Identity.legalFor switches (oracle w.expr w.scope) ≠ []) :
    (ws.filterMap (ofVisit? switches oracle version)).map (·.ordinal) = ws.map (·.ordinal) := by
  induction ws with
  | nil => rfl
  | cons w ws ih =>
    rw [List.forall_mem_cons] at h
    have hw := ofVisit?_eq_some.2 ⟨h.1.1, h.1.2, rfl⟩
    rw [List.filterMap_cons, hw, List.map_cons, List.map_cons, ih h.2]

variable {σ : Type} [RandomSource σ] {p q : Program} {m : MutationPoint} {source : σ}

/-- A point that is applied is put in the identity that the source chooses, or
in brackets when it chooses none. -/
theorem exists_choice (hm : m ∈ p.mutationPoints switches)
    (happly : (m.apply p source).1 = .ok q) :
    ∃ choice : Option Identity, (RandomSource.choose source m.identities).1 = .ok choice ∧
      (∀ identity, choice = some identity → identity ∈ m.identities) ∧
        q = p.rewrite (Replacement.nothing.add m.ordinal
          ((choice.getD .parenthesize).wrap (m.type.bind DataType.element) m.snapshot)) := by
  obtain ⟨v, hv, -, -, rfl⟩ := exists_found hm
  unfold apply place? at happly
  dsimp only [ofVisit] at happly ⊢
  rw [exprPlace?_visit hv, Option.bind_eq_bind, Option.bind_some] at happly
  dsimp only at happly
  split at happly
  · cases happly
  · next place hplace =>
    have hplace : p.exprPlace? v.ordinal = some place := by
      rw [exprPlace?_visit hv]
      exact (Option.ite_none_right_eq_some.1 hplace).2
    cases hchoice : (RandomSource.choose source
        (Identity.legalFor switches (p.declaredTypes v.expr v.scope))).1 with
    | error b =>
      rw [hchoice] at happly
      cases happly
    | ok choice =>
      rw [hchoice] at happly
      refine ⟨choice, rfl, ?_, ?_⟩
      · rintro identity rfl
        exact RandomSource.mem_of_choose hchoice
      · rw [← Except.ok.inj happly]
        exact wrapAt_visit hv hplace _ _

theorem suits_of_legal {type : Option DataType} {identity : Identity}
    (h : identity = .parenthesize ∨ identity ∈ Identity.legalFor switches type) :
    identity.suits type = true := by
  rcases h with rfl | hlegal
  · rfl
  · exact (Identity.mem_legalFor.1 hlegal).2

/-- Each node of a wanted identity around an expression is a point, when the
expression is one. So is a pair of brackets, wanted or not. -/
theorem legalFor_nodes (d : DeclaredTypes) (scope : ScopeTree) (e : Expr) {identity : Identity}
    (hne : Identity.legalFor switches (d.typeOf scope e) ≠ [])
    (hidentity : identity = .parenthesize ∨
      identity ∈ Identity.legalFor switches (d.typeOf scope e)) :
    ∀ n ∈ identity.nodes ((d.typeOf scope e).bind DataType.element) e,
      Identity.legalFor switches (d.typeOf scope n) ≠ [] := by
  rcases hidentity with rfl | hlegal
  · exact List.forall_mem_singleton.2 hne
  · obtain ⟨hwanted, hsuits⟩ := Identity.mem_legalFor.1 hlegal
    intro n hn
    rcases Identity.suits_nodes d scope e rfl hsuits n hn with htype | hsuits
    · rw [htype]
      exact hne
    · exact Identity.legalFor_ne_nil.2 ⟨identity, hwanted, hsuits⟩

/-- The visits of a program are carried over with their points. -/
theorem filterMap_wrapping {identity : Identity} {v : Visit} {vs' : List Visit} (hv : v ∈ p.visits)
    (hwrap : p.declaredTypes
      (identity.wrap ((p.declaredTypes v.expr v.scope).bind DataType.element) v.expr) v.scope =
        p.declaredTypes v.expr v.scope)
    (W : v.Wrapping identity ((p.declaredTypes v.expr v.scope).bind DataType.element) p.visits
      vs') :
    (vs'.filterMap (ofVisit? switches p.declaredTypes p.version)).Perm
      ((p.mutationPoints switches).map
          ((ofVisit switches p.declaredTypes v).carried identity) ++
        (W.lead ++ W.trail).filterMap (ofVisit? switches p.declaredTypes p.version)) := by
  have hrow : ∀ ws ws' : List Visit, (∀ w ∈ ws, w ∈ p.visits) →
      List.Forall₂ (Visit.CarriedOver identity _ v.ordinal v.expr) ws ws' →
        ws'.filterMap (ofVisit? switches p.declaredTypes p.version) =
          (ws.filterMap (ofVisit? switches p.declaredTypes p.version)).map
            ((ofVisit switches p.declaredTypes v).carried identity) :=
    fun ws ws' hmem hws => filterMap_carried ((forall₂_mem hws).imp fun w w' h =>
      ⟨h.2.2, h.2.2.type_eq (d := .ofProgram p) hv (hmem w h.1) hwrap⟩)
  have hvisits := W.visits
  have hbefore := hrow _ _ (fun w hw => by simp [hvisits, hw]) W.before_carried
  have hinner := hrow _ _ (fun w hw => by simp [hvisits, hw]) W.inner_carried
  have hafter := hrow _ _ (fun w hw => by simp [hvisits, hw]) W.after_carried
  have hfound : p.mutationPoints switches =
      (W.before ++ (W.inner ++ W.after)).filterMap (ofVisit? switches p.declaredTypes p.version) :=
    congrArg _ W.visits
  have hfound' := congrArg (List.filterMap (ofVisit? switches p.declaredTypes p.version)) W.visits'
  rw [hfound, hfound']
  simp only [List.filterMap_append, List.map_append, List.append_assoc]
  rw [hbefore, hinner, hafter]
  refine List.Perm.append_left _ ?_
  refine List.perm_append_comm.trans ?_
  simp only [List.append_assoc]
  refine List.Perm.append_left _ ?_
  refine List.perm_append_comm.trans ?_
  rw [List.append_assoc]

/-- Each node of the identity is a point, with the number of the node. -/
theorem ordinal_added {identity : Identity} {v : Visit} {vs' : List Visit}
    (hopen : isOpen p.version v = true)
    (hne : Identity.legalFor switches (p.declaredTypes v.expr v.scope) ≠ [])
    (hidentity : identity = .parenthesize ∨
      identity ∈ Identity.legalFor switches (p.declaredTypes v.expr v.scope))
    (W : v.Wrapping identity ((p.declaredTypes v.expr v.scope).bind DataType.element) p.visits
      vs') :
    ((W.lead ++ W.trail).filterMap (ofVisit? switches p.declaredTypes p.version)).map
        (·.ordinal) =
      List.range' v.ordinal identity.lead ++
        List.range' (v.ordinal + identity.lead + v.expr.size) identity.trail := by
  rw [← W.lead_ordinal, ← W.trail_ordinal, ← List.map_append]
  refine filterMap_ordinal fun w hw => ?_
  obtain ⟨hscope, haround, hoperand⟩ := W.around w hw
  have hnode : w.expr ∈
      identity.nodes ((p.declaredTypes v.expr v.scope).bind DataType.element) v.expr := by
    rw [← W.expr]
    exact List.mem_map_of_mem hw
  refine ⟨?_, ?_⟩
  · simp only [isOpen, Bool.and_eq_true, haround, hoperand, true_and] at hopen ⊢
    exact ⟨⟨hopen.1.1.2, hopen.1.2⟩, hopen.2⟩
  · rw [hscope]
    exact legalFor_nodes (.ofProgram p) v.scope v.expr hne hidentity w.expr hnode

/-- Under the number of the expression stands the identity now, which is longer. -/
theorem not_found_again {identity : Identity} {elem : Option ElementKind} {v : Visit}
    (W : v.Wrapping identity elem p.visits q.visits) {n : MutationPoint}
    (hn : n ∈ q.visits.filterMap (ofVisit? switches oracle version)) :
    ¬(n.ordinal = v.ordinal ∧ n.text = v.expr.text) := by
  rintro ⟨hnumber, htext⟩
  obtain ⟨w, hw, hwn⟩ := List.mem_filterMap.1 hn
  obtain ⟨-, -, rfl⟩ := ofVisit?_eq_some.1 hwn
  obtain ⟨u, hu, hroot, hexpr, -⟩ := W.exists_wrapped
  obtain rfl := Program.visits_ext hw hu (hnumber.trans hroot.symm)
  have hlonger := identity.length_text_wrap elem v.expr
  rw [← hexpr, show w.expr.text = v.expr.text from htext] at hlonger
  exact Nat.lt_irrefl _ hlonger

/-- What a scan finds after a point was applied. -/
theorem exists_grows (hm : m ∈ p.mutationPoints switches)
    (happly : (m.apply p source).1 = .ok q) :
    ∃ choice, (RandomSource.choose source m.identities).1 = .ok choice ∧
      m.Grows (choice.getD .parenthesize) (p.mutationPoints switches)
        (q.mutationPoints switches) := by
  obtain ⟨choice, hchoice, hlegal, hq⟩ := exists_choice hm happly
  refine ⟨choice, hchoice, ?_⟩
  have hidentity : choice.getD .parenthesize = .parenthesize ∨
      choice.getD .parenthesize ∈ m.identities := by
    cases choice with
    | none => exact Or.inl rfl
    | some identity => exact Or.inr (hlegal identity rfl)
  generalize choice.getD .parenthesize = identity at hidentity hq ⊢
  obtain ⟨v, hv, hopen, hne, rfl⟩ := exists_found hm
  obtain ⟨W⟩ := Program.visits_wrapping hv hopen identity
    ((p.declaredTypes v.expr v.scope).bind DataType.element)
  have hwrap := Identity.typeOf_wrap (.ofProgram p) v.scope v.expr rfl (suits_of_legal hidentity)
  have hscan : q.mutationPoints switches =
      q.visits.filterMap (ofVisit? switches p.declaredTypes p.version) := by
    subst hq
    unfold Program.mutationPoints
    rw [p.declaredTypes_rewrite]
    rfl
  have hq' : q = p.rewrite (Replacement.nothing.add v.ordinal
    (identity.wrap ((p.declaredTypes v.expr v.scope).bind DataType.element) v.expr)) := hq
  rw [← hq'] at W
  have hordinal := ordinal_added hopen hne hidentity W
  have hlength := congrArg List.length hordinal
  rw [List.length_map, List.length_append, List.length_range', List.length_range',
    identity.lead_add_trail] at hlength
  rw [hscan]
  exact ⟨⟨_, filterMap_wrapping hv hwrap W, hlength, hordinal⟩, fun n => not_found_again W⟩

end MutationPoint

/-! ## Sessions -/

namespace Session

variable {σ : Type} [RandomSource σ] {s : Session σ} {switches : IdentitySwitches} {p : Program}

omit [RandomSource σ] in
/-- A session that only wraps finds the mutation points. -/
theorem scan_mutation (hs : s.finders = [.mutation switches]) (p : Program) :
    s.scan p = (p.mutationPoints switches).map .mutation := by
  unfold scan
  rw [hs]
  simp [Finder.find]

/-- As long as there are points, a step applies one of them, and there are
points left. -/
theorem step_grows (hs : s.finders = [.mutation switches]) (hp : p.NaNFree)
    (hsource : RandomSource.StaysBelow s.source) (hne : p.mutationPoints switches ≠ []) :
    ∃ id changed after, s.step p = ⟨.ok (some id), changed, { s with source := after }⟩ ∧
      changed.NaNFree ∧ RandomSource.StaysBelow after ∧ changed.mutationPoints switches ≠ [] := by
  have hscan := scan_mutation hs p
  have hstepped := s.step_stepped p
  rcases s.step_fresh hp hsource with
    hstep | ⟨id, changed, after, hstep, hchanged, hafter⟩ | ⟨x, after, hforeign, hstep⟩
  · rw [hstep] at hstepped
    cases hstepped with
    | done hnone =>
      rw [hscan, List.map_eq_nil_iff] at hnone
      exact absurd hnone hne
  · refine ⟨id, changed, after, hstep, hchanged, hafter, ?_⟩
    rw [hstep] at hstepped
    generalize hout : (⟨.ok (some id), changed, { s with source := after }⟩ :
      Outcome σ (Option OpportunityId)) = out at hstepped
    cases hstepped with
    | applied o changed' source after' ho happly =>
      rw [hscan, List.mem_map] at ho
      obtain ⟨m, hm, rfl⟩ := ho
      cases hout
      obtain ⟨choice, -, hgrows⟩ := MutationPoint.exists_grows hm (congrArg Prod.fst happly)
      obtain ⟨added, hperm, -, -⟩ := hgrows.points
      intro hnil
      rw [hnil, List.nil_perm, List.append_eq_nil_iff, List.map_eq_nil_iff] at hperm
      exact hne hperm.1
    | _ => cases hout
  · obtain ⟨namePrefix, hmem, -, -⟩ := hforeign.found
    rw [hs] at hmem
    simp at hmem

theorem run_grows (hs : s.finders = [.mutation switches]) (hp : p.NaNFree)
    (hsource : RandomSource.StaysBelow s.source) (hne : p.mutationPoints switches ≠ [])
    (steps : Nat) :
    ∃ applied, applied.length = steps ∧ (s.run steps p).answer = .ok ⟨applied, false⟩ := by
  induction steps generalizing s p with
  | zero => exact ⟨[], rfl, rfl⟩
  | succ steps ih =>
    obtain ⟨id, changed, after, hstep, hchanged, hafter, hleft⟩ := step_grows hs hp hsource hne
    obtain ⟨applied, hlength, hanswer⟩ := ih (s := { s with source := after }) hs hchanged hafter
      hleft
    refine ⟨id :: applied, by rw [List.length_cons, hlength], ?_⟩
    simp [run, hstep, hanswer, Except.map]

/-- A step is allowed by settings that are checked. -/
theorem maxSteps_ne_zero {settings : SessionSettings} (h : settings.check = .ok ()) :
    settings.maxSteps ≠ 0 := by
  intro hzero
  unfold SessionSettings.check at h
  cases hswitch : checkIdentifier "injection_switch" settings.injectionSwitch with
  | error e =>
    rw [hswitch] at h
    cases h
  | ok _ =>
    rw [hswitch, hzero] at h
    cases h

end Session

end ShaderMorph
