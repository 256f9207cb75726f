-- What names stand for before and after a constituent is taken out. The
-- identifiers of both programs are matched in the order of the walk, and so
-- are the declarations, but for the one that may come in. An identifier goes
-- on to stand for the declaration that matches its own; in a replaced access
-- it stands for the new declaration, or the one at hand.
import ShaderMorph.Proofs.Extraction.Captures
import ShaderMorph.Proofs.Walk.Matching

namespace ShaderMorph

/-! ## When accesses are replaced -/

/-- What becomes of an identifier when accesses of `vector` are replaced by
expressions that name `component`. -/
inductive Visit.Renamed (vector component : String) (r : Replacement) (v v' : Visit) : Prop
  | kept (name : String) : v.expr = .ident name → v'.expr = .ident name → r.Leaves v →
    v'.scope = v.scope → v'.around = v.around → Renamed vector component r v v'
  | access (k : Nat) : v.expr = .ident vector → v'.expr = .ident component →
    v.parent = some k → (r k).isSome → v'.scope = v.scope → Renamed vector component r v v'

/-- An expression that names one thing has one identifier. -/
theorem Expr.Names.identifiers {e : Expr} {name : String} (h : e.Names name)
    (heads : List Prototype) (scope : ScopeTree) (around : Surroundings) (parent : Option Nat)
    (k : Nat) :
    ∃ v, Event.identifiers ((e.visits heads scope around parent k).map .visit) = [v] ∧
      v.expr = .ident name ∧ v.scope = scope := by
  cases h with
  | ident => exact ⟨_, rfl, rfl, rfl⟩
  | call callee => exact ⟨_, rfl, rfl, rfl⟩
  | member field => exact ⟨_, rfl, rfl, rfl⟩

theorem Expr.name?_rewrite {r : Replacement} {k : Nat} (h : r k = none) (e : Expr) :
    (e.rewrite r k).name? = e.name? := by
  cases e <;> simp [rewrite, h, name?]

/-- On these events, members of `vector` are replaced, and by expressions that
name `component`. -/
def Replacement.Renames (r : Replacement) (vector component : String) (es : List Event) : Prop :=
  ∀ v, .visit v ∈ es → ∀ new, r v.ordinal = some new →
    (∃ field, v.expr = .member (.ident vector) field) ∧ new.Names component

namespace Replacement.Renames

variable {r : Replacement} {vector component : String} {front es : List Event}

theorem of_cons {e : Event} (hr : r.Renames vector component (e :: es)) :
    r.Renames vector component es := fun v hv => hr v (List.mem_cons_of_mem _ hv)

theorem of_append (hr : r.Renames vector component (front ++ es)) :
    r.Renames vector component es := fun v hv => hr v (List.mem_append_right _ hv)

/-- A replaced expression that comes first is an access. -/
theorem access {heads : List Prototype} {e new : Expr} {scope : ScopeTree}
    {around : Surroundings} {parent : Option Nat} {k : Nat}
    (hr : r.Renames vector component
      ((e.visits heads scope around parent k).map .visit ++ es)) (hk : r k = some new) :
    (∃ field, e = .member (.ident vector) field) ∧ new.Names component :=
  hr ⟨e, k, parent, around, scope⟩
    (List.mem_append_left _ (List.mem_map_of_mem (e.root_mem_visits heads scope around parent k)))
    new hk

end Replacement.Renames

/-- The identifiers of a walk, and those after accesses were replaced. -/
theorem Rewritten.identifiers {heads : List Prototype} {r : Replacement} {es es' : List Event}
    {vector component : String} (h : Rewritten heads r es es')
    (hr : r.Renames vector component es) :
    List.Forall₂ (Visit.Renamed vector component r) (Event.identifiers es)
      (Event.identifiers es') := by
  induction h with
  | nil => exact .nil
  | declare d _ ih => exact ih hr.of_cons
  | kept v v' hk hp he hs ha _ ih =>
    have ih := ih hr.of_cons
    have hname : v'.expr.name? = v.expr.name? := by rw [he, v.expr.name?_rewrite hk]
    rw [Event.identifiers_cons_visit, Event.identifiers_cons_visit, hname]
    cases hn : v.expr.name? with
    | none => simpa using ih
    | some name =>
      refine .cons (.kept name (Expr.eq_ident_of_name? hn) ?_ ⟨hk, hp⟩ hs ha) ih
      exact Expr.eq_ident_of_name? (hname.trans hn)
  | replaced e new scope around parent parent' k k' hk _ ih =>
    rw [Event.identifiers_append, Event.identifiers_append]
    refine List.rel_append ?_ (ih hr.of_append)
    obtain ⟨⟨field, rfl⟩, hnew⟩ := hr.access hk
    obtain ⟨v', hv', hexpr, hscope⟩ := hnew.identifiers heads scope around parent' k'
    rw [hv']
    exact .cons (.access k rfl hexpr rfl (by simp [hk]) hscope) .nil

/-! ## When a declaration comes in -/

namespace Event

variable {ρ : Relocation} {new : Symbol} {has : ScopeTree → Prop} {es es' : List Event}

theorem visits_moved (h : List.Forall₂ (Moved ρ new has) es es') :
    List.Forall₂ (fun v v' => v'.expr = v.expr ∧ v.scope.Grafted new (has v.scope) v'.scope)
      (visits es) (visits es') := by
  induction h with
  | nil => exact .nil
  | cons hm _ ih =>
    cases hm with
    | visit v v' he ho hg => exact .cons ⟨he, hg⟩ ih
    | declare d d' hs hl hc hg => exact ih

theorem moved_identifiers (h : List.Forall₂ (Moved ρ new has) es es') :
    List.Forall₂ (fun v v' => v'.expr = v.expr ∧ v.scope.Grafted new (has v.scope) v'.scope)
      (identifiers es) (identifiers es') := by
  refine List.rel_filter (fun v v' hm => ?_) (visits_moved h)
  simp only [hm.1]

theorem moved_declareds (h : List.Forall₂ (Moved ρ new has) es es') :
    List.Forall₂ (fun d d' => d'.symbol = new.renumber d.symbol ∧ d'.isConst = d.isConst ∧
        d.scope.Grafted new (has d.scope) d'.scope) (declared es) (declared es') := by
  induction h with
  | nil => exact .nil
  | cons hm _ ih =>
    cases hm with
    | visit v v' he ho hg => exact ih
    | declare d d' hs hl hc hg => exact .cons ⟨hs, hc, hg⟩ ih

end Event

/-! ## Identifiers matched -/

/-- What becomes of an identifier when `component` is taken out of `vector`.
In a replaced access it stands for the target. Everywhere else it keeps its
name and its meaning: a declaration from `ds` turns into the one at the same
place of `ds'`, and a name without a meaning gets none, unless it is that of
the component. -/
inductive Visit.Carried (vector component : String) (r : Replacement) (ds ds' : List Declared)
    (target : Symbol) (v v' : Visit) : Prop
  | kept (name : String) : v.expr = .ident name → v'.expr = .ident name → r.Leaves v →
    (∀ u, v.scope.lookup name = some u →
      ∃ u', u.Matched ds ds' u' ∧ v'.scope.lookup name = some u') →
    (name ≠ component → v.scope.lookup name = none → v'.scope.lookup name = none) →
    Carried vector component r ds ds' target v v'
  | access (k : Nat) : v.expr = .ident vector → v'.expr = .ident component →
    v.parent = some k → (r k).isSome → v'.scope.lookup component = some target →
    Carried vector component r ds ds' target v v'

namespace Sighting

variable {namePrefix : String} {p p' : Program} {s : Sighting namePrefix p.walk}
  {rules : MergeRules} {c : Constituent} {plan : ExtractionPlan}

theorem before_mem_walk {e : Event} (h : e ∈ s.before) : e ∈ p.walk := by
  rw [s.split]
  exact List.mem_append_left _ h

theorem Plans.names (h : s.Plans rules c plan) {k : Nat} {new : Expr}
    (hnew : plan.replacement k = some new) : new.Names c.name := by
  obtain ⟨v, hv, hord, swizzle, hp, hr⟩ := h.replacement_eq_some.1 hnew
  exact Constituent.replacement?_names hr

/-- What a plan replaces on the walk, and by what. -/
theorem Plans.renames (h : s.Plans rules c plan) {es : List Event} (hes : ∀ e ∈ es, e ∈ p.walk) :
    plan.replacement.Renames s.declared.symbol.name c.name es := by
  intro v hv new hnew
  have hv : v ∈ p.visits := Program.mem_visits.2 (hes _ hv)
  obtain ⟨swizzle, hp, -⟩ := (h.replacement_ordinal_eq_some hv).1 hnew
  obtain ⟨field, hfield, -⟩ := hp.expr
  exact ⟨⟨field, hfield⟩, h.names hnew⟩

/-- The identifier in a replaced access is met behind the vector, where the
vector is in scope. -/
theorem Plans.access (h : s.Plans rules c plan) {v : Visit} (hv : .visit v ∈ p.walk) {k : Nat}
    (hk : v.parent = some k) (hr : (plan.replacement k).isSome) :
    .visit v ∈ s.after ∧ s.declared.symbol ∈ v.scope.symbols ∧
      ∃ w ∈ p.visits, w.scope = v.scope ∧ ∃ swizzle, s.Picks c w swizzle := by
  obtain ⟨new, hnew⟩ := Option.isSome_iff_exists.1 hr
  have hvisit : v ∈ p.visits := Program.mem_visits.2 hv
  obtain ⟨-, w, hw, -, hscope, swizzle, hp⟩ := h.parent_eq hvisit hk hnew
  have hmem : s.declared.symbol ∈ v.scope.symbols := hscope ▸ (ScopeTree.lookup_mem hp.means).1
  exact ⟨s.mem_after hv hmem, hmem, w, hw, hscope, swizzle, hp⟩

namespace Inserted

variable (I : s.Inserted c plan.replacement p')

/-- The declarations afterwards, without the new one. -/
def rest : List Declared :=
  Event.declared I.enlargement.pre' ++
    (Event.declared I.enlargement.lead' ++ I.enlargement.vector' ::
      Event.declared I.enlargement.after')

theorem declared_eq :
    p'.declared = Event.declared I.enlargement.pre' ++ I.new ::
      (Event.declared I.enlargement.lead' ++ I.enlargement.vector' ::
        Event.declared I.enlargement.after') := by
  have hw := congrArg Event.declared I.enlargement.walk'
  rw [Event.declared_append, Event.declared_cons_declare, Event.declared_append,
    Event.declared_cons_declare] at hw
  rw [Program.declared_eq]
  exact hw

/-- The declarations of the program, cut like its walk afterwards. -/
theorem declared_split :
    p.declared = Event.declared I.enlargement.pre ++
      (Event.declared I.enlargement.lead ++ s.declared :: Event.declared I.enlargement.after) := by
  rw [Program.declared_eq, s.declared_events, ← I.before_rewritten.declared,
    ← I.after_rewritten.declared, ← I.before_eq, ← I.after_eq, Event.declared_append,
    List.append_assoc]

/-- Behind the vector, the new variable is in scope where the vector is. -/
theorem binds_iff {e e' : Event} (he : e ∈ p.walk) (he' : e' ∈ I.enlargement.after)
    (hscope : e'.scope = e.scope) :
    e.scope.binds I.new.symbol.id = true ↔ s.declared.symbol ∈ e.scope.symbols := by
  have htied := I.enlargement.tied e' he'
  rw [I.vector_eq, hscope] at htied
  rw [new, htied]
  exact ⟨Program.mem_of_binds s.declared_mem he, fun hb => ScopeTree.binds_iff.2 ⟨_, hb, rfl⟩⟩

/-- A name that is used in front of the vector means what it did. -/
theorem lookup_before (hfree : s.Free rules c) {v w : Visit} {name : String}
    (hv : .visit v ∈ s.before) (hexpr : v.expr = .ident name) (hscope : w.scope = v.scope)
    (haround : w.around.initializerOf = v.around.initializerOf) {t : ScopeTree}
    (hg : w.scope.Grafted I.new.symbol False t ∨
      .visit w ∈ I.enlargement.lead ∧ w.scope.Grafted I.new.symbol True t)
    (hused : name ≠ c.name ∨ ∃ u, v.scope.lookup name = some u) :
    t.lookup name = (v.scope.lookup name).map I.new.symbol.renumber := by
  rw [hscope] at hg
  rcases hg with hg | ⟨hlead, hg⟩
  · exact hg.kept name fun hcaught => hcaught.1
  · refine hg.kept name fun hcaught => ?_
    obtain ⟨-, hn, hold⟩ := hcaught
    have hc : name = c.name := hn.symm.trans I.name_eq
    rcases hused with hne | ⟨u, hu⟩
    · exact hne hc
    · subst hc
      exact absurd (hold u hu)
        (Nat.not_lt.2 (I.le_id_of_lead hfree hv hlead hscope haround hexpr hu))

/-- So does one that is used behind it. -/
theorem lookup_after (hfree : s.Free rules c) {v w : Visit} {name : String}
    (hv : .visit v ∈ p.walk) (hexpr : v.expr = .ident name) (hw : .visit w ∈ I.enlargement.after)
    (hscope : w.scope = v.scope) {t : ScopeTree}
    (hg : w.scope.Grafted I.new.symbol (w.scope.binds I.new.symbol.id = true) t)
    (hused : name ≠ c.name ∨ ∃ u, v.scope.lookup name = some u) :
    t.lookup name = (v.scope.lookup name).map I.new.symbol.renumber := by
  rw [hscope] at hg
  refine hg.kept name fun hcaught => ?_
  obtain ⟨hbinds, hn, hold⟩ := hcaught
  have hc : name = c.name := hn.symm.trans I.name_eq
  rcases hused with hne | ⟨u, hu⟩
  · exact hne hc
  · subst hc
    have hmem := (I.binds_iff hv hw hscope).1 hbinds
    exact absurd (hold u hu)
      (Nat.not_lt.2 (I.le_id_of_after hfree (s.mem_after hv hmem) hexpr hmem hu))

/-- Where the constituent was accessed, its name means the new variable. -/
theorem lookup_access (hfree : s.Free rules c) {v w : Visit} (hv : v ∈ p.visits) {swizzle : Swizzle}
    (hp : s.Picks c v swizzle) (hw : .visit w ∈ I.enlargement.after) (hscope : w.scope = v.scope)
    {t : ScopeTree}
    (hg : w.scope.Grafted I.new.symbol (w.scope.binds I.new.symbol.id = true) t) :
    t.lookup c.name = some I.new.symbol := by
  have hname : I.new.symbol.name = c.name := I.name_eq
  have hwalk : .visit v ∈ p.walk := Program.mem_visits.1 hv
  have hbinds := (I.binds_iff hwalk hw hscope).2 (ScopeTree.lookup_mem hp.means).1
  rw [hscope] at hg
  rw [← hname]
  refine hg.caught hbinds fun u hu => ?_
  rw [hname] at hu
  exact I.id_lt_of_access hfree hv hp hu

/-- An identifier that means what it did goes on to stand for it. -/
theorem carried_kept {v v' : Visit} {name : String} (hexpr : v.expr = .ident name)
    (hexpr' : v'.expr = .ident name) (hl : plan.replacement.Leaves v)
    (hkept : (name ≠ c.name ∨ ∃ u, v.scope.lookup name = some u) →
      v'.scope.lookup name = (v.scope.lookup name).map I.new.symbol.renumber)
    {ds ds' : List Declared}
    (hds : ∀ u ∈ v.scope.symbols, u.Matched ds ds' (I.new.symbol.renumber u)) :
    v.Carried s.declared.symbol.name c.name plan.replacement ds ds' I.new.symbol v' := by
  refine .kept name hexpr hexpr' hl (fun u hu => ?_) fun hne hnone => ?_
  · refine ⟨I.new.symbol.renumber u, hds u (ScopeTree.lookup_mem hu).1, ?_⟩
    rw [hkept (Or.inr ⟨u, hu⟩), hu, Option.map_some]
  · rw [hkept (Or.inl hne), hnone, Option.map_none]

/-- Where an identifier in front of the vector is kept, so is its meaning. -/
theorem carried_before (h : s.Plans rules c plan) (hfree : s.Free rules c) {v w v' : Visit}
    (hv : .visit v ∈ s.before)
    (hr : v.Renamed s.declared.symbol.name c.name plan.replacement w)
    (hm : v'.expr = w.expr ∧ (w.scope.Grafted I.new.symbol False v'.scope ∨
      .visit w ∈ I.enlargement.lead ∧ w.scope.Grafted I.new.symbol True v'.scope))
    {ds ds' : List Declared}
    (hds : ∀ u ∈ v.scope.symbols, u.Matched ds ds' (I.new.symbol.renumber u)) :
    v.Carried s.declared.symbol.name c.name plan.replacement ds ds' I.new.symbol v' := by
  obtain ⟨hexpr, hm⟩ := hm
  cases hr with
  | access k he he' hk hsome hs =>
    obtain ⟨-, hmem, -⟩ := h.access (s.before_mem_walk hv) hk hsome
    exact absurd (Program.id_lt_of_before s.split hv hmem) (Nat.lt_irrefl _)
  | kept name he he' hl hs ha =>
    exact I.carried_kept he (hexpr.trans he') hl
      (I.lookup_before hfree hv he hs (congrArg (·.initializerOf) ha) hm) hds

/-- Behind the vector, an identifier keeps its meaning or stands for the new
variable. -/
theorem carried_after (h : s.Plans rules c plan) (hfree : s.Free rules c) {v w v' : Visit}
    (hv : .visit v ∈ s.after)
    (hr : v.Renamed s.declared.symbol.name c.name plan.replacement w)
    (hw : .visit w ∈ I.enlargement.after) (hexpr : v'.expr = w.expr)
    (hg : w.scope.Grafted I.new.symbol (w.scope.binds I.new.symbol.id = true) v'.scope)
    {ds ds' : List Declared}
    (hds : ∀ u ∈ v.scope.symbols, u.Matched ds ds' (I.new.symbol.renumber u)) :
    v.Carried s.declared.symbol.name c.name plan.replacement ds ds' I.new.symbol v' := by
  have hwalk := s.mem_walk hv
  cases hr with
  | access k he he' hk hsome hs =>
    obtain ⟨-, -, u, hu, huscope, swizzle, hp⟩ := h.access hwalk hk hsome
    exact .access k he (hexpr.trans he') hk hsome
      (I.lookup_access hfree hu hp hw (hs.trans huscope.symm) hg)
  | kept name he he' hl hs ha =>
    exact I.carried_kept he (hexpr.trans he') hl (I.lookup_after hfree hwalk he hw hs hg) hds

/-! ## The two programs matched -/

theorem matches_of_frame {d d' : Declared} (hd : d ∈ p.declared) (hd' : d' ∈ p'.declared)
    (hs : d'.symbol = I.new.symbol.renumber d.symbol) (hc : d'.isConst = d.isConst)
    (hf : (d'.scope.lookupInCurrentFrame d.symbol.name).isSome =
      (d.scope.lookupInCurrentFrame d.symbol.name).isSome) : d.Matches d' := by
  refine ⟨by rw [hs]; rfl, by rw [hs]; rfl, by rw [hs]; rfl, by rw [hs]; rfl, hc, ?_⟩
  have hname : d'.symbol.name = d.symbol.name := by rw [hs]; rfl
  rw [(Program.declared_scope hd).2.2, (Program.declared_scope hd').2.2, hname, hf]

/-- The declarations, but for the new one, are those of the program, and none
of them is marked anew. -/
theorem declared_matches (h : s.Free rules c) (hc : c ∈ s.packing.constituents) :
    List.Forall₂ (fun d d' => d'.symbol = I.new.symbol.renumber d.symbol ∧ d.Matches d')
      p.declared I.rest := by
  have hin : ∀ {d}, d ∈ I.rest → d ∈ p'.declared := by
    intro d hd
    rw [I.declared_eq]
    simp only [rest, List.mem_append, List.mem_cons] at hd ⊢
    tauto
  have hout : ∀ {d}, d ∈ Event.declared I.enlargement.pre ++
      (Event.declared I.enlargement.lead ++ s.declared :: Event.declared I.enlargement.after) →
        d ∈ p.declared := fun hd => I.declared_split ▸ hd
  have hwf : ∀ {q : Program} {d}, d ∈ q.declared → d.scope.WellFormed := fun hd =>
    Program.wellFormed_of_mem_walk (Program.mem_declared.1 hd)
  have hkept : ∀ {d d' : Declared} {has : Prop}, d ∈ p.declared → d' ∈ p'.declared →
      d'.symbol = I.new.symbol.renumber d.symbol → d'.isConst = d.isConst →
      d.scope.Grafted I.new.symbol has d'.scope → ¬(has ∧ d.symbol.name = c.name) →
      d'.symbol = I.new.symbol.renumber d.symbol ∧ d.Matches d' := by
    intro d d' has hd hd' hs hconst hg hne
    refine ⟨hs, I.matches_of_frame hd hd' hs hconst (hg.frame_eq (hwf hd) (hwf hd') ?_)⟩
    exact hg.kept _ fun hcaught => hne ⟨hcaught.1, hcaught.2.1.symm.trans I.name_eq⟩
  rw [I.declared_split]
  refine List.rel_append ?_ (List.rel_append ?_ (.cons ?_ ?_))
  · refine (forall₂_mem (Event.moved_declareds I.enlargement.pre_moved)).imp ?_
    rintro d d' ⟨hd, hd', hs, hconst, hg⟩
    exact hkept (hout (by simp [hd])) (hin (by simp [rest, hd'])) hs hconst hg (by simp)
  · refine (forall₂_mem (Event.moved_declareds I.enlargement.lead_moved)).imp ?_
    rintro d d' ⟨hd, hd', hs, hconst, hg⟩
    refine hkept (hout (by simp [hd])) (hin (by simp [rest, hd'])) hs hconst hg ?_
    exact fun hn => I.name_ne_of_lead h (Event.mem_declared.1 hd) hn.2
  · have hv := I.enlargement.vector_moved
    rw [I.vector_eq] at hv
    cases hv with
    | declare _ _ hs hl hconst hg =>
      refine hkept (hout (by simp)) (hin (by simp [rest])) hs hconst hg ?_
      exact fun hn => s.component_ne hc hn.2.symm
  · refine (forall₂_mem (Event.moved_declareds I.enlargement.after_moved)).imp ?_
    rintro d d' ⟨hd, hd', hs, hconst, hg⟩
    have hdp := hout (d := d) (by simp [hd])
    have hdp' := hin (d := d') (by simp [rest, hd'])
    have hafter : .declare d ∈ s.after := by
      rw [I.after_eq, I.after_rewritten.declared] at hd
      exact Event.mem_declared.1 hd
    have htied := I.enlargement.tied _ (Event.mem_declared.1 hd)
    rw [I.vector_eq] at htied
    exact ⟨hs, I.matches_of_frame hdp hdp' hs hconst
      (I.frame_eq_of_after h hafter (hwf hdp') hg htied)⟩

/-- The identifiers go on to stand for what they stood for. -/
theorem identifiers_carried (h : s.Plans rules c plan) (hfree : s.Free rules c)
    (hc : c ∈ s.packing.constituents) :
    List.Forall₂ (Visit.Carried s.declared.symbol.name c.name plan.replacement p.declared I.rest
      I.new.symbol) p.identifiers p'.identifiers := by
  have hds : ∀ {e : Event}, e ∈ p.walk → ∀ u ∈ e.scope.symbols,
      u.Matched p.declared I.rest (I.new.symbol.renumber u) := by
    intro e he u hu
    obtain ⟨d, hd, rfl, -⟩ := Program.declared_of_bound he hu
    exact Symbol.matched_of_forall₂ ((I.declared_matches hfree hc).imp fun _ _ hm => hm.1) hd
  have hp' := congrArg Event.identifiers I.enlargement.walk'
  rw [Event.identifiers_append, Event.identifiers_cons_declare, Event.identifiers_append,
    Event.identifiers_cons_declare, ← List.append_assoc] at hp'
  rw [Program.identifiers_eq, Program.identifiers_eq, congrArg Event.identifiers s.split,
    Event.identifiers_append, Event.identifiers_cons_declare, hp']
  refine List.rel_append ?_ ?_
  · have hbefore := I.before_rewritten.identifiers (h.renames fun _ => s.before_mem_walk)
    rw [← I.before_eq, Event.identifiers_append] at hbefore
    have hmoved := List.rel_append
      ((Event.moved_identifiers I.enlargement.pre_moved).imp
        fun w v' hm => (⟨hm.1, Or.inl hm.2⟩ : v'.expr = w.expr ∧
          (w.scope.Grafted I.new.symbol False v'.scope ∨
            .visit w ∈ I.enlargement.lead ∧ w.scope.Grafted I.new.symbol True v'.scope)))
      ((forall₂_mem (Event.moved_identifiers I.enlargement.lead_moved)).imp
        fun w v' hm => ⟨hm.2.2.1, Or.inr ⟨Event.mem_identifiers hm.1, hm.2.2.2⟩⟩)
    refine forall₂_comp hbefore hmoved fun v w v' hv hr hm => ?_
    have hv := Event.mem_identifiers hv
    exact I.carried_before h hfree hv hr hm (hds (s.before_mem_walk hv))
  · have hafter := I.after_rewritten.identifiers (h.renames fun _ => s.mem_walk)
    rw [← I.after_eq] at hafter
    refine forall₂_comp hafter (forall₂_mem (Event.moved_identifiers I.enlargement.after_moved))
      fun v w v' hv hr hm => ?_
    have hv := Event.mem_identifiers hv
    exact I.carried_after h hfree hv hr (Event.mem_identifiers hm.1) hm.2.2.1 hm.2.2.2
      (hds (s.mem_walk hv))

end Inserted

/-! ## A declaration at hand -/

/-- Where the constituent is accessed, its name stands for the declaration at
hand. -/
theorem lookup_of_reuse {d : Declared} (hd : d ∈ p.declared)
    (hall : ∀ a ∈ s.accesses rules c, a.2 = .sameFrame d.symbol.id) {v : Visit}
    (hv : v ∈ p.visits) {swizzle : Swizzle} (hp : s.Picks c v swizzle) :
    v.scope.lookup c.name = some d.symbol := by
  obtain ⟨u, hu, -, hid⟩ := Resolution.ofLookup_sameFrame.1
    ((s.forall_accesses rules (P := (· = .sameFrame d.symbol.id))).1 hall v hv swizzle hp)
  rw [hu, (Program.eq_of_lookup hd (Program.mem_visits.1 hv) hu hid).1]

/-- When nothing comes in, the identifiers go on to stand for what they stood
for, too. -/
theorem Plans.identifiers_carried (h : s.Plans rules c plan) {d : Declared} (hd : d ∈ p.declared)
    (hall : ∀ a ∈ s.accesses rules c, a.2 = .sameFrame d.symbol.id) :
    List.Forall₂ (Visit.Carried s.declared.symbol.name c.name plan.replacement p.declared
      p.declared d.symbol) p.identifiers (p.rewrite plan.replacement).identifiers := by
  have hsame : List.Forall₂ (fun d d' : Declared => d'.symbol = id d.symbol)
      p.declared p.declared :=
    List.forall₂_same.2 fun _ _ => rfl
  rw [Program.identifiers_eq, Program.identifiers_eq]
  have hr := (p.walk_rewrite plan.replacement).identifiers (h.renames fun _ he => he)
  refine (forall₂_mem hr).imp ?_
  rintro v v' ⟨hv, -, hr⟩
  have hwalk := Event.mem_identifiers hv
  cases hr with
  | kept name he he' hl hs ha =>
    refine .kept name he he' hl (fun u hu => ⟨u, ?_, by rw [hs, hu]⟩)
      fun _ hnone => by rw [hs, hnone]
    obtain ⟨d', hd', rfl, -⟩ := Program.declared_of_bound hwalk (ScopeTree.lookup_mem hu).1
    exact Symbol.matched_of_forall₂ hsame hd'
  | access k he he' hk hsome hs =>
    obtain ⟨-, -, w, hw, hscope, swizzle, hp⟩ := h.access hwalk hk hsome
    refine .access k he he' hk hsome ?_
    rw [hs, ← hscope]
    exact lookup_of_reuse hd hall hw hp

end Sighting

/-! ## Taking out what was reported -/

/-- Taking out what was reported captures nothing. The declarations of the
program are matched with those afterwards, without the one that may come in,
and the identifiers with those afterwards. Each identifier outside the
replaced accesses keeps its name and goes on to stand for the matching
declaration, or for none, as long as it does not have the name of the
constituent. In the replaced accesses that name stands for the declaration
that comes in, which is the first of its name in its frame, or for the one at
hand in the frame of the vector. No other declaration is marked anew. -/
theorem Extraction.applyBy_captures_nothing {p : Program} {namePrefix : String}
    {oracle : TypeOracle} {x : Extraction} (h : x ∈ p.extractionsBy namePrefix oracle) :
    ∃ plan p', (p.extractionPlans namePrefix oracle).find? (·.extraction == x) = some plan ∧
      x.applyBy p namePrefix oracle = .ok p' ∧
      ∃ s : Sighting namePrefix p.walk, ∃ c ∈ s.packing.constituents, s.extraction c = x ∧
      ∃ (ds : List Declared) (target : Declared),
        (plan.insertBefore = none ∧ ds = p'.declared ∧ target ∈ ds ∧
            s.frameSymbols c = [target.symbol] ∨
          plan.insertBefore = some s.declared.location ∧
            ∃ i, p'.declared[i]? = some target ∧ ds = p'.declared.eraseIdx i ∧
              target.symbol.name = x.component ∧ target.symbol.type = x.type ∧
                target.redeclared = false) ∧
        List.Forall₂ Declared.Matches p.declared ds ∧
        List.Forall₂ (Visit.Carried x.vector x.component plan.replacement p.declared ds
          target.symbol) p.identifiers p'.identifiers := by
  obtain ⟨plan, p', hfind, happly, s, c, hc, rfl, hs, happlied⟩ := exists_applied h
  refine ⟨plan, p', hfind, happly, s, c, hc, rfl, ?_⟩
  cases happlied with
  | reuse d hi hd hu htype hall =>
    have hdeclared : (p.rewrite plan.replacement).declared = p.declared := by
      rw [Program.declared_eq, Program.declared_eq, (p.walk_rewrite plan.replacement).declared]
    exact ⟨p.declared, d, Or.inl ⟨hi, hdeclared.symm, hd, hu⟩,
      List.forall₂_same.2 fun d _ => .refl d, hs.identifiers_carried hd hall⟩
  | insert hi hfree hl I =>
    refine ⟨I.rest, I.new,
      Or.inr ⟨hi, (Event.declared I.enlargement.pre').length, ?_, ?_, I.name_eq, I.type_eq,
        I.new_redeclared hfree⟩,
      (I.declared_matches hfree hc).imp fun _ _ hm => hm.2,
      I.identifiers_carried hs hfree hc⟩
    · rw [I.declared_eq]
      simp
    · rw [I.declared_eq, Sighting.Inserted.rest,
        List.eraseIdx_append_of_length_le (Nat.le_refl _)]
      simp

theorem Extraction.applyBy_captures_nothing_merged :
    mergedFloat ∈ Program.merged.extractionsBy "GLF_merged" Program.merged.declaredTypes ∧
      ∃ plan p' ds target,
        mergedFloat.applyBy .merged "GLF_merged" Program.merged.declaredTypes = .ok p' ∧
          List.Forall₂ (Visit.Carried mergedFloat.vector mergedFloat.component
            (ExtractionPlan.replacement plan) Program.merged.declared ds target)
            Program.merged.identifiers p'.identifiers := by
  have hx : mergedFloat ∈
      Program.merged.extractionsBy "GLF_merged" Program.merged.declaredTypes := by decide +kernel
  obtain ⟨plan, p', -, happly, -, -, -, -, ds, target, -, -, hcarried⟩ :=
    applyBy_captures_nothing hx
  exact ⟨hx, plan, p', ds, target.symbol, happly, hcarried⟩

end ShaderMorph
