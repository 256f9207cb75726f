-- What a scan reports of a constituent that was taken out. A merged name may
-- list one variable name several times, and then as many extractions are
-- reported that look alike. Taking one of them out leaves the others, as long
-- as they have the type of the variable that is now declared, and so each
-- time there is one less.
import ShaderMorph.Proofs.Extraction.Successor

namespace ShaderMorph

namespace Sighting

variable {namePrefix : String} {p p' : Program} {s : Sighting namePrefix p.walk}
  {s' : Sighting namePrefix p'.walk} {rules rules' : MergeRules} {c c₀ : Constituent}
  {plan : ExtractionPlan}

/-! ## When there is a plan -/

/-- Declared types give every access of a whole constituent the type of it. -/
theorem typed_of_declaredTypes (s : Sighting namePrefix p.walk) (c : Constituent)
    (scalarSwizzles : Bool) : ∀ e ∈ s.after,
    (s.watch c).mistypes ⟨namePrefix, p.declaredTypes, scalarSwizzles⟩ e = false := by
  intro e he
  cases e with
  | declare d => rfl
  | visit v =>
    simp only [Watch.mistypes, Option.any_eq_false]
    intro swizzle hs
    have hp := (swizzle?_eq_some (s.mem_walk he)).1 hs
    rw [Bool.and_eq_false_imp]
    intro hexact
    have hlength : swizzle.length = c.width := by
      have := beq_iff_eq.1 hexact
      rw [Swizzle.length, this]
      simp [watch]
    have horacle : p.declaredTypes v.expr v.scope = some (c.type s.packing.elem) := by
      rw [Constituent.type, ← hlength]
      exact hp.typeOf (.ofProgram p)
    simp [horacle, watch]

/-- A constituent has a plan when it is accessed and one of the ways to take
it out is open. -/
theorem plan?_isSome (s : Sighting namePrefix p.walk) :
    (s.plan? rules c).isSome ↔
      (∀ e ∈ s.after, MergedVector.opaqueBy s.declared.symbol.id s.packing.width e = false) ∧
        (∀ e ∈ s.after, (s.watch c).mistypes rules e = false) ∧
          (∃ v ∈ p.visits, ∃ swizzle, s.Picks c v swizzle) ∧ ∃ o, s.Outcome rules c o := by
  rw [← s.accesses_ne_nil rules]
  constructor
  · intro h
    obtain ⟨plan, hplan⟩ := Option.isSome_iff_exists.1 h
    have h := (s.plan?_eq_some rules c).1 hplan
    exact ⟨h.followed, h.typed, h.accessed, _, h.outcome⟩
  · rintro ⟨hf, ht, ha, o, ho⟩
    have h : s.Plans rules c ⟨s.extraction c, (s.accesses rules c).map (·.1), o⟩ :=
      ⟨rfl, rfl, hf, ht, ha, ho⟩
    rw [(s.plan?_eq_some rules c).2 h]
    rfl

theorem frameSymbols_congr {events : List Event} (s : Sighting namePrefix events)
    (h : c.name = c₀.name) : s.frameSymbols c = s.frameSymbols c₀ := by
  unfold frameSymbols
  rw [h]
  congr 3
  funext d
  simp [Watch.joins, watch, h]

/-- With one declaration of the name at hand, it has to serve. -/
theorem exists_outcome_of_singleton {u : Symbol} (hf : s.frameSymbols c = [u]) :
    (∃ o, s.Outcome rules c o) ↔ u.type = c.type s.packing.elem ∧
      ∀ v ∈ p.visits, ∀ swizzle, s.Picks c v swizzle →
        Resolution.ofLookup s.declared.symbol.depth (v.scope.lookup c.name) = .sameFrame u.id := by
  rw [← s.forall_accesses rules (P := (· = .sameFrame u.id))]
  constructor
  · rintro ⟨o, ho⟩
    cases ho with
    | reuse u' hu htype hall =>
      obtain rfl := List.singleton_inj.1 (hf.symm.trans hu)
      exact ⟨htype, hall⟩
    | insert hfree _ =>
      rw [hfree.frame] at hf
      cases hf
  · rintro ⟨htype, hall⟩
    exact ⟨none, .reuse u hf htype hall⟩

/-- With none, a new one has to come in. -/
theorem exists_outcome_of_nil (hf : s.frameSymbols c = []) :
    (∃ o, s.Outcome rules c o) ↔
      s.Free rules c ∧ s.declared.location.acceptsSibling = true := by
  constructor
  · rintro ⟨o, ho⟩
    cases ho with
    | reuse u hu _ _ =>
      rw [hf] at hu
      cases hu
    | insert hfree hl => exact ⟨hfree, hl⟩
  · rintro ⟨hfree, hl⟩
    exact ⟨_, .insert hfree hl⟩

/-- What makes a name free does so for every constituent of that name, but for
the accesses. -/
theorem Free.of_name (h : s.Free rules c₀) (hname : c.name = c₀.name)
    (ha : ∀ v ∈ p.visits, ∀ swizzle, s.Picks c v swizzle →
      ∀ u, v.scope.lookup c.name = some u → u.depth < s.declared.symbol.depth) :
    s.Free rules c where
  frame := (s.frameSymbols_congr hname).trans h.frame
  reads := hname ▸ h.reads
  captures e he := by
    have hc : (s.watch c).captures e = (s.watch c₀).captures e := by
      cases e with
      | declare d => rfl
      | visit v =>
        simp only [Watch.captures, watch, hname]
        rfl
    rw [hc]
    exact h.captures e he
  accesses := (s.accesses_outer rules).2 ha

theorem extraction_eq {events : List Event} (s : Sighting namePrefix events) :
    s.extraction c = s.extraction c₀ ↔
      c.name = c₀.name ∧ c.type s.packing.elem = c₀.type s.packing.elem := by
  simp [extraction]

/-! ## The constituents that are left -/

namespace Succeeds

variable {R : ScopeTree → ScopeTree → Prop} (S : s.Succeeds s' plan.replacement c₀.name R)
  (h : s.Plans rules c₀ plan) (hc₀ : c₀ ∈ s.packing.constituents)

include S h hc₀

/-- What holds of the scopes at all accesses of another constituent, before and
afterwards. -/
theorem forall_picks (hmeets : c.meets c₀ = false) {P Q : ScopeTree → Prop}
    (hPQ : ∀ v ∈ p.visits, ∀ v' ∈ p'.visits, ∀ swizzle, s.Picks c v swizzle →
      R v.scope v'.scope → (Q v'.scope ↔ P v.scope)) :
    (∀ v' ∈ p'.visits, ∀ swizzle, s'.Picks c v' swizzle → Q v'.scope) ↔
      ∀ v ∈ p.visits, ∀ swizzle, s.Picks c v swizzle → P v.scope := by
  constructor
  · intro hall v hv swizzle hp
    obtain ⟨v', hv', hp', hR⟩ := S.picks_forth h hmeets hv hp
    exact (hPQ v hv v' hv' swizzle hp hR).1 (hall v' hv' swizzle hp')
  · intro hall v' hv' swizzle hp'
    obtain ⟨v, hv, hp, -, hR⟩ := S.picks_back h hc₀ hv' hp'
    exact (hPQ v hv v' hv' swizzle hp hR).2 (hall v hv swizzle hp)

/-- Whether another constituent has a plan hangs on the ways to take it out. -/
theorem plan?_isSome_iff (hmeets : c.meets c₀ = false)
    (htyped : ∀ e ∈ s.after, (s.watch c).mistypes rules e = false)
    (htyped' : ∀ e ∈ s'.after, (s'.watch c).mistypes rules' e = false) {q : Prop}
    (hout : (∃ o, s'.Outcome rules' c o) ↔ q ∧ ∃ o, s.Outcome rules c o) :
    (s'.plan? rules' c).isSome ↔ q ∧ (s.plan? rules c).isSome := by
  have haccessed : (∃ v' ∈ p'.visits, ∃ swizzle, s'.Picks c v' swizzle) ↔
      ∃ v ∈ p.visits, ∃ swizzle, s.Picks c v swizzle := by
    constructor
    · rintro ⟨v', hv', swizzle, hp'⟩
      obtain ⟨v, hv, hp, -⟩ := S.picks_back h hc₀ hv' hp'
      exact ⟨v, hv, swizzle, hp⟩
    · rintro ⟨v, hv, swizzle, hp⟩
      obtain ⟨v', hv', hp', -⟩ := S.picks_forth h hmeets hv hp
      exact ⟨v', hv', swizzle, hp'⟩
  rw [plan?_isSome, plan?_isSome, hout, haccessed]
  constructor
  · rintro ⟨-, -, ha, hq, ho⟩
    exact ⟨hq, h.followed, htyped, ha, ho⟩
  · rintro ⟨hq, -, -, ha, ho⟩
    exact ⟨S.followed h hc₀, htyped', ha, hq, ho⟩

/-- Of the constituents of the name, the one that was taken out has no plan any
more. The others have one when they did, and are of its type. -/
theorem plan?_isSome_and_name_iff (hc : c ∈ s.packing.constituents)
    (htyped : ∀ e ∈ s.after, (s.watch c).mistypes rules e = false)
    (htyped' : ∀ e ∈ s'.after, (s'.watch c).mistypes rules' e = false)
    (hout : c ≠ c₀ → c.name = c₀.name → ((∃ o, s'.Outcome rules' c o) ↔
      c.type s.packing.elem = c₀.type s.packing.elem ∧ ∃ o, s.Outcome rules c o)) :
    (s'.plan? rules' c).isSome ∧ c.name = c₀.name ↔
      c ≠ c₀ ∧ (s.plan? rules c).isSome ∧ s.extraction c = s.extraction c₀ := by
  rw [extraction_eq]
  by_cases hne : c = c₀
  · subst hne
    have hnone : ¬(s'.plan? rules' c).isSome := by
      rw [plan?_isSome]
      rintro ⟨-, -, ⟨v', hv', swizzle, hp'⟩, -⟩
      exact S.not_picks h hc₀ hv' swizzle hp'
    exact iff_of_false (fun hleft => hnone hleft.1) fun hright => hright.1 rfl
  · by_cases hname : c.name = c₀.name
    · rw [S.plan?_isSome_iff h hc₀ (s.not_meets hc hc₀ hne) htyped htyped' (hout hne hname)]
      simp [hne, hname, and_comm]
    · simp [hname]

end Succeeds

/-! ## When a declaration at hand serves -/

/-- The vector on the walk after accesses were replaced. -/
theorem Plans.exists_rewritten (h : s.Plans rules c₀ plan) :
    ∃ s' : Sighting namePrefix (p.rewrite plan.replacement).walk,
      s.Succeeds s' plan.replacement c₀.name (fun t t' => t' = t) ∧ s'.declared = s.declared ∧
        s'.packing = s.packing ∧ Event.declared s'.after = Event.declared s.after := by
  obtain ⟨before', after', hw, hb, ha⟩ := (p.walk_rewrite plan.replacement).split s.split
  have hrenames := h.renames fun e he => s.mem_walk (e := e) he
  refine ⟨⟨before', s.declared, after', s.packing, hw, s.packed⟩, ?_, rfl, rfl, ha.declared⟩
  constructor
  · rfl
  · rfl
  · simp only [occurrence, hb.declared]
  · exact fun v hv hl => ha.forth hrenames hv hl
  · exact fun v' hv' => ha.back hrenames hv'
  · rintro t _ rfl
    rfl

/-- With a declaration at hand, just the constituents of its type and name are
left that could be taken out before. -/
theorem plan?_of_reuse (h : s.Plans rules c₀ plan) (hc₀ : c₀ ∈ s.packing.constituents)
    (S : s.Succeeds s' plan.replacement c₀.name fun t t' => t' = t)
    (hd : s'.declared = s.declared)
    (hafter : Event.declared s'.after = Event.declared s.after)
    (htyped : ∀ e ∈ s.after, (s.watch c).mistypes rules e = false)
    (htyped' : ∀ e ∈ s'.after, (s'.watch c).mistypes rules' e = false) {u : Symbol}
    (hu : s.frameSymbols c₀ = [u]) (htype : u.type = c₀.type s.packing.elem)
    (hc : c ∈ s.packing.constituents) :
    (s'.plan? rules' c).isSome ∧ c.name = c₀.name ↔
      c ≠ c₀ ∧ (s.plan? rules c).isSome ∧ s.extraction c = s.extraction c₀ := by
  refine S.plan?_isSome_and_name_iff h hc₀ hc htyped htyped' fun hne hname => ?_
  have hframe : s'.frameSymbols c = s.frameSymbols c := by
    simp only [frameSymbols, watch, hd, S.packing, hafter]
  have hone := (s.frameSymbols_congr hname).trans hu
  have hsees := S.forall_picks h hc₀ (s.not_meets hc hc₀ hne)
    (P := fun t => Resolution.ofLookup s.declared.symbol.depth (t.lookup c.name) = .sameFrame u.id)
    (Q := fun t => Resolution.ofLookup s'.declared.symbol.depth (t.lookup c.name) = .sameFrame u.id)
    fun v _ v' _ _ _ hscope => by rw [hscope, hd]
  rw [exists_outcome_of_singleton (hframe.trans hone), exists_outcome_of_singleton hone, hsees,
    S.packing, htype]
  exact ⟨fun h => ⟨h.1.symm, h⟩, And.right⟩

/-! ## When a declaration comes in -/

end Sighting

theorem Symbol.packing?_renumber (namePrefix : String) (new u : Symbol) :
    (new.renumber u).packing? namePrefix = u.packing? namePrefix := by
  obtain ⟨name, id, type, depth, kind⟩ := u
  rfl

namespace Sighting

variable {namePrefix : String} {p p' : Program} {s : Sighting namePrefix p.walk}
  {s' : Sighting namePrefix p'.walk} {rules rules' : MergeRules} {c c₀ : Constituent}
  {plan : ExtractionPlan}

namespace Inserted

variable (I : s.Inserted c₀ plan.replacement p')

/-- What a scope behind the vector has to do with the same one afterwards. -/
def Grafts (t t' : ScopeTree) : Prop :=
  t.Grafted I.new.symbol (t.binds I.new.symbol.id = true) t' ∧
    (t.binds I.new.symbol.id = true ↔ s.declared.symbol ∈ t.symbols)

theorem vector_symbol :
    I.enlargement.vector'.symbol = I.new.symbol.renumber s.declared.symbol := by
  have hv := I.enlargement.vector_moved
  rw [I.vector_eq] at hv
  cases hv with
  | declare _ _ hs => exact hs

/-- The vector on the walk after the declaration came in. -/
def sighting : Sighting namePrefix p'.walk where
  before := I.enlargement.pre' ++ .declare I.new :: I.enlargement.lead'
  declared := I.enlargement.vector'
  after := I.enlargement.after'
  packing := s.packing
  split := I.enlargement.walk'.trans (by simp [new])
  packed := by
    rw [I.vector_symbol, Symbol.packing?_renumber]
    exact s.packed

/-- The kernel would compare the two sightings before it looks at what is
asked of them, so the field is read off the constructor. -/
theorem packing_sighting : I.sighting.packing = s.packing := by
  have hmk : ∀ {es : List Event} (a : List Event) (d : Declared) (b : List Event) (m : Packing)
      (hs : es = a ++ .declare d :: b) (hp : d.symbol.packing? namePrefix = some m),
      (Sighting.mk a d b m hs hp).packing = m := fun _ _ _ _ _ _ => rfl
  exact hmk _ _ _ _ _ _

theorem sighting_symbol :
    I.sighting.declared.symbol = I.new.symbol.renumber s.declared.symbol := I.vector_symbol

theorem new_name_ne (hc₀ : c₀ ∈ s.packing.constituents) :
    I.new.symbol.name ≠ s.declared.symbol.name := by
  have hname : I.new.symbol.name = c₀.name := I.name_eq
  exact hname ▸ s.component_ne hc₀

/-- The name of the vector stands for it just where it did. -/
theorem means_iff (hc₀ : c₀ ∈ s.packing.constituents) {has : Prop} {t t' : ScopeTree}
    (hg : t.Grafted I.new.symbol has t') :
    t'.lookup s.declared.symbol.name = some I.sighting.declared.symbol ↔
      t.lookup s.declared.symbol.name = some s.declared.symbol := by
  rw [hg.kept _ fun hcaught => I.new_name_ne hc₀ hcaught.2.1, I.sighting_symbol,
    Option.map_eq_some_iff]
  constructor
  · rintro ⟨u, hu, hmove⟩
    rw [hu, Symbol.renumber_inj hmove]
  · intro hl
    exact ⟨_, hl, rfl⟩

theorem occurrence_sighting (hc₀ : c₀ ∈ s.packing.constituents) :
    I.sighting.occurrence = s.occurrence := by
  have hpacks : ∀ {es es' : List Event} {has : ScopeTree → Prop},
      List.Forall₂ (Event.Moved (.before s.declared.location) I.new.symbol has) es es' →
        (Event.declared es').countP (·.packs namePrefix s.declared.symbol.name) =
          (Event.declared es).countP (·.packs namePrefix s.declared.symbol.name) := by
    intro es es' has hm
    have hd := Event.moved_declareds hm
    generalize Event.declared es = ds at hd ⊢
    generalize Event.declared es' = ds' at hd ⊢
    induction hd with
    | nil => rfl
    | cons hab _ ih =>
      rw [List.countP_cons, List.countP_cons, ih]
      congr 2
      rw [Declared.packs, hab.1, Symbol.packing?_renumber]
      rfl
  have hname : I.sighting.declared.symbol.name = s.declared.symbol.name := by
    rw [I.sighting_symbol, Symbol.name_renumber]
  have hnew : I.new.packs namePrefix s.declared.symbol.name = false := by
    simp [Declared.packs, I.new_name_ne hc₀]
  unfold occurrence
  rw [hname, sighting, ← I.before_rewritten.declared, ← I.before_eq, Event.declared_append,
    Event.declared_cons_declare, Event.declared_append, List.countP_append, List.countP_append,
    List.countP_cons_of_neg (by simp [hnew]), hpacks I.enlargement.pre_moved,
    hpacks I.enlargement.lead_moved]

theorem succeeds (h : s.Plans rules c₀ plan) (hc₀ : c₀ ∈ s.packing.constituents) :
    s.Succeeds I.sighting plan.replacement c₀.name I.Grafts where
  name := by rw [I.sighting_symbol, Symbol.name_renumber]
  packing := I.packing_sighting
  occurrence := I.occurrence_sighting hc₀
  forth := by
    intro v hv hl
    obtain ⟨w, hw, hexpr, hscope⟩ :=
      I.after_rewritten.forth (h.renames fun _ => s.mem_walk) hv hl
    rw [← I.after_eq] at hw
    obtain ⟨e', he', hm⟩ := forall₂_left I.enlargement.after_moved hw
    cases hm with
    | visit _ v' he ho hg =>
      rw [hscope] at hg
      exact ⟨v', he', he.trans hexpr, hg, I.binds_iff (s.mem_walk hv) hw hscope⟩
  back := by
    intro v' hv'
    obtain ⟨e, he, hm⟩ := forall₂_right I.enlargement.after_moved hv'
    cases hm with
    | visit w _ hexpr ho hg =>
      rw [hexpr]
      have hw := he
      rw [I.after_eq] at he
      refine (I.after_rewritten.back (h.renames fun _ => s.mem_walk) he).imp_left ?_
      rintro ⟨v, hv, hl, hrewrite, hscope⟩
      rw [hscope] at hg
      exact ⟨v, hv, hl, hrewrite, hg, I.binds_iff (s.mem_walk hv) hw hscope⟩
  means _ _ hR := I.means_iff hc₀ hR.1

/-- The name stands for the new variable, where the vector is in scope, just
when it stood for an outer variable or for none. -/
theorem lookup_new_iff (hfree : s.Free rules c₀) {e : Event} (he : e ∈ p.walk)
    (hb : s.declared.symbol ∈ e.scope.symbols) {t' : ScopeTree} (hg : I.Grafts e.scope t') :
    t'.lookup c₀.name = some I.new.symbol ↔
      ∀ u, e.scope.lookup c₀.name = some u → u.depth < s.declared.symbol.depth := by
  obtain ⟨hg, hbinds⟩ := hg
  have hname : I.new.symbol.name = c₀.name := I.name_eq
  rw [I.vector_depth]
  have hbuilt := I.builtOn he hb
  constructor
  · intro hnew u hu
    refine Nat.lt_of_not_le fun hle => ?_
    have hid : I.new.symbol.id ≤ u.id := Nat.le_of_not_lt fun hlt =>
      Nat.not_lt.2 hle (I.depth_lt hfree hbuilt hu hlt)
    have hkept := hg.kept c₀.name fun hcaught => Nat.not_lt.2 hid (hcaught.2.2 u hu)
    rw [hnew, hu, Option.map_some, Option.some.injEq] at hkept
    exact Symbol.moveId_ne I.new.symbol u.id (congrArg (·.id) hkept.symm)
  · intro hold
    rw [← hname]
    refine hg.caught (hbinds.2 hb) fun u hu => ?_
    rw [hname] at hu
    exact I.id_lt hbuilt (Program.wellFormed_of_mem_walk he) (ScopeTree.lookup_mem hu).1 (hold u hu)

/-- Behind the vector, a declaration joins its frame just when it did. -/
theorem joins_moved (c : Constituent) {has : Prop} {d d' : Declared}
    (hs : d'.symbol = I.new.symbol.renumber d.symbol)
    (hg : d.scope.Grafted I.new.symbol has d'.scope) :
    (I.sighting.watch c).joins d' = (s.watch c).joins d := by
  have hb : d'.scope.binds (I.new.symbol.moveId s.declared.symbol.id) =
      d.scope.binds s.declared.symbol.id := hg.binds _
  simp only [Watch.joins, watch, I.sighting_symbol, Symbol.id_renumber, Symbol.depth_renumber,
    Symbol.name_renumber, hs, hg.depth, hb]

/-- The new declaration is the only one of its name in the frame. -/
theorem frameSymbols_sighting (hfree : s.Free rules c₀) :
    I.sighting.frameSymbols c₀ = [I.new.symbol] := by
  have hname : I.new.symbol.name = c₀.name := I.name_eq
  have hwalk : .declare s.declared ∈ p.walk := Program.mem_declared.1 s.declared_mem
  have hwalk' : .declare I.enlargement.vector' ∈ p'.walk :=
    Program.mem_declared.1 I.sighting.declared_mem
  have hw : s.declared.scope.WellFormed := Program.wellFormed_of_mem_walk hwalk
  have hw' : I.enlargement.vector'.scope.WellFormed := Program.wellFormed_of_mem_walk hwalk'
  obtain ⟨-, -, hdepth, -⟩ := I.stacked_vector
  have hv := I.enlargement.vector_moved
  rw [I.vector_eq] at hv
  have hg : s.declared.scope.Grafted I.new.symbol True I.enlargement.vector'.scope := by
    cases hv with
    | declare _ _ _ _ _ hg => exact hg
  have hold : ∀ u, s.declared.scope.lookup I.new.symbol.name = some u →
      u.id < I.new.symbol.id := by
    intro u hu
    rw [hname] at hu
    have hnone := hfree.lookup_eq_none
    rw [hw.lookupInCurrentFrame_eq, hu] at hnone
    have hne : u.depth ≠ s.declared.scope.depth := by simpa [Option.filter] using hnone
    refine I.id_lt I.stacked_vector.builtOn hw (ScopeTree.lookup_mem hu).1 ?_
    rw [← hdepth]
    exact Nat.lt_of_le_of_ne (hw.lookup_depth_le hu) hne
  have hfirst : I.enlargement.vector'.scope.lookupInCurrentFrame c₀.name = some I.new.symbol := by
    rw [hw'.lookupInCurrentFrame_eq, ← hname, hg.caught trivial hold, hg.depth]
    simp [Option.filter, I.new_depth, hdepth]
  have hjoins : ∀ d' ∈ Event.declared I.enlargement.after',
      ¬(I.sighting.watch c₀).joins d' = true := by
    intro d' hd'
    obtain ⟨d, hd, hs, -, hg⟩ :=
      forall₂_right (Event.moved_declareds I.enlargement.after_moved) hd'
    rw [I.after_eq, I.after_rewritten.declared] at hd
    rw [I.joins_moved c₀ hs hg, hfree.joins_eq_false (Event.mem_declared.1 hd)]
    exact Bool.false_ne_true
  have hrest : (Event.declared I.enlargement.after').filter (I.sighting.watch c₀).joins = [] :=
    List.filter_eq_nil_iff.2 hjoins
  unfold frameSymbols
  have hd : I.sighting.declared = I.enlargement.vector' := rfl
  have ha : I.sighting.after = I.enlargement.after' := rfl
  rw [hd, ha, hfirst, hrest]
  rfl

/-- The name is seen in the frame of the vector, as the new variable, where the
new variable is what it stands for. -/
theorem sameFrame_iff {v' : Visit} (hv' : v' ∈ p'.visits) {name : String} :
    Resolution.ofLookup I.sighting.declared.symbol.depth (v'.scope.lookup name) =
        .sameFrame I.new.symbol.id ↔
      v'.scope.lookup name = some I.new.symbol := by
  have hdepth : I.sighting.declared.symbol.depth = I.new.symbol.depth := by
    rw [I.sighting_symbol, I.new_depth, ← I.vector_depth, Symbol.depth_renumber]
  rw [Resolution.ofLookup_sameFrame]
  constructor
  · rintro ⟨u, hu, -, hid⟩
    rw [hu, (Program.eq_of_lookup I.new_mem (Program.mem_visits.1 hv') hu hid).1]
  · intro hu
    exact ⟨_, hu, hdepth.symm, rfl⟩

/-- With the new declaration in, just the constituents of its type and name are
left that could be taken out before. -/
theorem plan?_of_insert (h : s.Plans rules c₀ plan) (hc₀ : c₀ ∈ s.packing.constituents)
    (hfree : s.Free rules c₀) (hl : s.declared.location.acceptsSibling = true)
    (htyped : ∀ e ∈ s.after, (s.watch c).mistypes rules e = false)
    (htyped' : ∀ e ∈ I.sighting.after, (I.sighting.watch c).mistypes rules' e = false)
    (hc : c ∈ s.packing.constituents) :
    (I.sighting.plan? rules' c).isSome ∧ c.name = c₀.name ↔
      c ≠ c₀ ∧ (s.plan? rules c).isSome ∧ s.extraction c = s.extraction c₀ := by
  have S := I.succeeds h hc₀
  have htype : I.new.symbol.type = c₀.type s.packing.elem := I.type_eq
  refine S.plan?_isSome_and_name_iff h hc₀ hc htyped htyped' fun hne hname => ?_
  have hone := (I.sighting.frameSymbols_congr hname).trans (I.frameSymbols_sighting hfree)
  have hnone := (s.frameSymbols_congr hname).trans hfree.frame
  -- An access sees the new variable where it saw an outer one, or none.
  have hsees := S.forall_picks h hc₀ (s.not_meets hc hc₀ hne)
    (P := fun t => ∀ u, t.lookup c.name = some u → u.depth < s.declared.symbol.depth)
    (Q := fun t => Resolution.ofLookup I.sighting.declared.symbol.depth (t.lookup c.name) =
      .sameFrame I.new.symbol.id) fun v hv v' hv' _ hp hg => by
    rw [I.sameFrame_iff hv', hname]
    exact I.lookup_new_iff hfree (Program.mem_visits.1 hv) (ScopeTree.lookup_mem hp.means).1 hg
  have hfree_iff : s.Free rules c ↔ ∀ v ∈ p.visits, ∀ swizzle, s.Picks c v swizzle →
      ∀ u, v.scope.lookup c.name = some u → u.depth < s.declared.symbol.depth :=
    ⟨fun hfree' => (s.accesses_outer rules).1 hfree'.accesses, hfree.of_name hname⟩
  rw [exists_outcome_of_singleton hone, exists_outcome_of_nil hnone, hsees, ← hfree_iff,
    I.packing_sighting, htype]
  exact ⟨fun h => ⟨h.1.symm, h.2, hl⟩, fun h => ⟨h.1.symm, h.2.1⟩⟩

end Inserted

end Sighting

/-! ## Counting what is reported -/

/-- No constituent is listed twice, though its name may be. -/
theorem Sighting.constituents_nodup {namePrefix : String} {events : List Event}
    (s : Sighting namePrefix events) : s.packing.constituents.Nodup := by
  obtain ⟨happart, hpos⟩ := s.constituents_apart
  refine happart.imp_of_mem fun {a b} ha _ hmeets hab => ?_
  subst hab
  have hself : a.meets a = true := by
    have := hpos a ha
    simp [Constituent.meets, Constituent.stop]
    omega
  exact Bool.false_ne_true (hmeets.symm.trans hself)

/-- With one element taken out, one less is counted. -/
theorem countP_ne_add_one [DecidableEq α] {l : List α} (h : l.Nodup) {a : α} (ha : a ∈ l)
    {P : α → Bool} (hP : P a = true) :
    l.countP (fun b => b != a && P b) + 1 = l.countP P := by
  have herase : l.countP (fun b => b != a && P b) = (l.erase a).countP P := by
    rw [h.erase_eq_filter, List.countP_filter]
    exact List.countP_congr fun b _ => by simp [and_comm]
  rw [herase, (List.perm_cons_erase ha).countP_eq, List.countP_cons_of_pos hP]

namespace MergedVector

/-- The plans for what can be taken out of one vector. -/
def plans (v : MergedVector) : List ExtractionPlan := v.constituents.filterMap v.plan?

theorem extraction_of_mem_plans {v : MergedVector} {plan : ExtractionPlan} (h : plan ∈ v.plans) :
    plan.extraction.vector = v.name ∧ plan.extraction.occurrence = v.occurrence := by
  obtain ⟨c, -, hplan⟩ := List.mem_filterMap.1 h
  obtain ⟨o, -, rfl⟩ := Option.map_eq_some_iff.1 hplan
  exact ⟨rfl, rfl⟩

end MergedVector

theorem Sighting.plans_eq {namePrefix : String} {events : List Event}
    (s : Sighting namePrefix events) (rules : MergeRules) :
    (s.vector rules).plans = s.packing.constituents.filterMap (s.plan? rules) :=
  List.filterMap_map

theorem Sighting.countP_plans {namePrefix : String} {events : List Event}
    (s : Sighting namePrefix events) (rules : MergeRules) (P : Extraction → Bool) :
    (s.vector rules).plans.countP (P ·.extraction) =
      s.packing.constituents.countP fun c => (s.plan? rules c).isSome && P (s.extraction c) := by
  rw [s.plans_eq, List.countP_filterMap]
  refine List.countP_congr fun c _ => ?_
  cases hp : s.plan? rules c with
  | none => simp
  | some plan => simp [((s.plan?_eq_some rules c).1 hp).extraction]

/-- The plans for one vector stand together, and no other plan is for it. -/
theorem MergeFacts.exists_plans_split (rules : MergeRules) {events : List Event}
    (s : Sighting rules.namePrefix events) : ∃ front back,
      (ofEvents rules events).plans = front ++ ((s.vector rules).plans ++ back) ∧
        ∀ plan ∈ front ++ back, plan.extraction.vector = s.declared.symbol.name →
          plan.extraction.occurrence ≠ s.occurrence := by
  have hplans : (ofEvents rules events).plans =
      (ofEvents rules events).vectors.flatMap MergedVector.plans := rfl
  obtain ⟨a, b, hab⟩ := List.append_of_mem ((mem_vectors rules).2 ⟨s, rfl⟩)
  have hother : ∀ v ∈ a ++ b, v.name = s.declared.symbol.name → v.occurrence ≠ s.occurrence := by
    have hpairwise := vectors_pairwise rules events
    rw [hab, List.pairwise_append, List.pairwise_cons] at hpairwise
    obtain ⟨-, ⟨hb, -⟩, hacross⟩ := hpairwise
    intro v hv
    rcases List.mem_append.1 hv with hv | hv
    · exact hacross v hv _ List.mem_cons_self
    · exact fun hname hocc => hb v hv hname.symm hocc.symm
  refine ⟨a.flatMap MergedVector.plans, b.flatMap MergedVector.plans, ?_, ?_⟩
  · rw [hplans, hab, List.flatMap_append, List.flatMap_cons]
  · intro plan hplan hname hocc
    rw [← List.flatMap_append] at hplan
    obtain ⟨v, hv, hplan⟩ := List.mem_flatMap.1 hplan
    obtain ⟨hvector, hoccurrence⟩ := MergedVector.extraction_of_mem_plans hplan
    exact hother v hv (hvector.symm.trans hname) (hoccurrence.symm.trans hocc)

/-- What is reported for one vector is reported for no other. -/
theorem MergeFacts.countP_plans (rules : MergeRules) {events : List Event}
    (s : Sighting rules.namePrefix events) {P : Extraction → Bool}
    (hP : ∀ x, P x = true → x.vector = s.declared.symbol.name ∧ x.occurrence = s.occurrence) :
    (ofEvents rules events).plans.countP (P ·.extraction) =
      s.packing.constituents.countP fun c => (s.plan? rules c).isSome && P (s.extraction c) := by
  obtain ⟨front, back, hplans, hother⟩ := exists_plans_split rules s
  have hzero : ∀ l : List ExtractionPlan, (∀ plan ∈ l, plan ∈ front ++ back) →
      l.countP (P ·.extraction) = 0 := by
    intro l hl
    rw [List.countP_eq_zero]
    intro plan hplan hx
    obtain ⟨hname, hocc⟩ := hP _ hx
    exact hother plan (hl plan hplan) hname hocc
  rw [hplans, List.countP_append, List.countP_append, s.countP_plans,
    hzero front fun _ => List.mem_append_left _, hzero back fun _ => List.mem_append_right _,
    Nat.zero_add, Nat.add_zero]

/-! ## Taking one out -/

theorem Extraction.targets_iff {a b : Extraction} :
    a.targets b = true ↔
      a.vector = b.vector ∧ a.component = b.component ∧ a.occurrence = b.occurrence := by
  simp [targets, and_assoc]

namespace Sighting

variable {namePrefix : String} {p p' : Program} {s : Sighting namePrefix p.walk}
  {s' : Sighting namePrefix p'.walk} {oracle oracle' : TypeOracle} {c₀ : Constituent}

/-- The vector is sighted again, and just the constituents that looked like one
of them, and not that one itself, can still be taken out under its name. -/
structure Spares (s : Sighting namePrefix p.walk) (c₀ : Constituent) (oracle : TypeOracle)
    (s' : Sighting namePrefix p'.walk) (oracle' : TypeOracle) : Prop where
  name : s'.declared.symbol.name = s.declared.symbol.name
  packing : s'.packing = s.packing
  occurrence : s'.occurrence = s.occurrence
  plan? : ∀ c ∈ s.packing.constituents,
    ((s'.plan? ⟨namePrefix, oracle', p'.version.hasScalarSwizzles⟩ c).isSome ∧
        c.name = c₀.name ↔
      c ≠ c₀ ∧ (s.plan? ⟨namePrefix, oracle, p.version.hasScalarSwizzles⟩ c).isSome ∧
        s.extraction c = s.extraction c₀)

namespace Spares

theorem extraction_eq (h : s.Spares c₀ oracle s' oracle') (c : Constituent) :
    s'.extraction c = s.extraction c := by
  simp [extraction, h.name, h.packing, h.occurrence]

/-- What is reported of the vector afterwards, and holds of what was taken out
only for its name, is reported for constituents that looked like it. -/
theorem countP_eq (h : s.Spares c₀ oracle s' oracle') {P : Extraction → Bool}
    (hP : ∀ x, P x = true → x.targets (s.extraction c₀) = true) :
    (p'.extractionsBy namePrefix oracle').countP P =
      s.packing.constituents.countP fun c => c != c₀ &&
        ((s.plan? ⟨namePrefix, oracle, p.version.hasScalarSwizzles⟩ c).isSome &&
          (s.extraction c == s.extraction c₀ && P (s.extraction c))) := by
  rw [Program.extractionsBy, List.countP_map]
  refine (MergeFacts.countP_plans ⟨namePrefix, oracle', p'.version.hasScalarSwizzles⟩ s'
    (P := P) fun x hx => ?_).trans ?_
  · obtain ⟨hv, -, ho⟩ := Extraction.targets_iff.1 (hP x hx)
    exact ⟨hv.trans h.name.symm, ho.trans h.occurrence.symm⟩
  · rw [h.packing]
    refine List.countP_congr fun c hc => ?_
    have hleft := h.plan? c hc
    rw [h.extraction_eq]
    simp only [Bool.and_eq_true, beq_iff_eq, bne_iff_ne]
    constructor
    · rintro ⟨hp, hx⟩
      obtain ⟨hne, hp, he⟩ := hleft.1 ⟨hp, (Extraction.targets_iff.1 (hP _ hx)).2.1⟩
      exact ⟨hne, hp, he, hx⟩
    · rintro ⟨hne, hp, he, hx⟩
      exact ⟨(hleft.2 ⟨hne, hp, he⟩).1, hx⟩

/-- Whatever still targets what was taken out is the same extraction again. -/
theorem eq_of_targets (h : s.Spares c₀ oracle s' oracle') {y : Extraction}
    (hy : y ∈ p'.extractionsBy namePrefix oracle') (ht : y.targets (s.extraction c₀) = true) :
    y = s.extraction c₀ := by
  have hzero := h.countP_eq
    (P := fun x => x.targets (s.extraction c₀) && x != s.extraction c₀)
    fun x hx => ((Bool.and_eq_true _ _).mp hx).1
  have hnone : ∀ c, ¬(c != c₀ &&
      ((s.plan? ⟨namePrefix, oracle, p.version.hasScalarSwizzles⟩ c).isSome &&
        (s.extraction c == s.extraction c₀ && ((s.extraction c).targets (s.extraction c₀) &&
          s.extraction c != s.extraction c₀)))) = true := by
    intro c hc
    simp only [Bool.and_eq_true, beq_iff_eq, bne_iff_ne] at hc
    exact hc.2.2.2.2 hc.2.2.1
  rw [List.countP_eq_zero.2 fun c _ => hnone c, List.countP_eq_zero] at hzero
  simpa [ht] using hzero y hy

/-- And there is one less of it. -/
theorem count_add_one (h : s.Spares c₀ oracle s' oracle') (hc₀ : c₀ ∈ s.packing.constituents)
    (hplan : (s.plan? ⟨namePrefix, oracle, p.version.hasScalarSwizzles⟩ c₀).isSome) :
    (p'.extractionsBy namePrefix oracle').count (s.extraction c₀) + 1 =
      (p.extractionsBy namePrefix oracle).count (s.extraction c₀) := by
  have hbefore : (p.extractionsBy namePrefix oracle).count (s.extraction c₀) =
      s.packing.constituents.countP fun c =>
        (s.plan? ⟨namePrefix, oracle, p.version.hasScalarSwizzles⟩ c).isSome &&
          s.extraction c == s.extraction c₀ := by
    rw [Program.extractionsBy, List.count_eq_countP, List.countP_map]
    refine MergeFacts.countP_plans ⟨namePrefix, oracle, p.version.hasScalarSwizzles⟩ s
      (P := (· == s.extraction c₀)) fun x hx => ?_
    rw [beq_iff_eq.1 hx]
    exact ⟨rfl, rfl⟩
  have hafter := h.countP_eq (P := (· == s.extraction c₀)) fun x hx => by
    rw [beq_iff_eq.1 hx]
    exact Extraction.targets_iff.2 ⟨rfl, rfl, rfl⟩
  have hone := countP_ne_add_one s.constituents_nodup hc₀
    (P := fun c => (s.plan? ⟨namePrefix, oracle, p.version.hasScalarSwizzles⟩ c).isSome &&
      s.extraction c == s.extraction c₀) (by simp [hplan])
  rw [List.count_eq_countP, hafter, hbefore, ← hone]
  simp only [Bool.and_self]

end Spares

end Sighting

namespace Extraction

/-- Taking out what was reported leaves just what looked like it: the same
name in another place of the vector, with the same type. With each step there
is one less, and what was reported once is stale afterwards. -/
theorem apply_spares {p : Program} {namePrefix : String} {x : Extraction}
    (h : x ∈ p.extractions namePrefix) :
    ∃ p', x.apply p namePrefix = .ok p' ∧
      (∀ y ∈ p'.extractions namePrefix, y.targets x = true → y = x) ∧
        (p'.extractions namePrefix).count x + 1 = (p.extractions namePrefix).count x ∧
          ((p.extractions namePrefix).count x = 1 →
            x.apply p' namePrefix = .error (.staleExtraction x.describe)) := by
  obtain ⟨plan, p', -, happly, s, c₀, hc₀, rfl, hs, happlied⟩ := exists_applied h
  obtain ⟨s', hspares⟩ : ∃ s' : Sighting namePrefix p'.walk,
      s.Spares c₀ p.declaredTypes s' p'.declaredTypes := by
    cases happlied with
    | reuse d _ _ hu htype _ =>
      obtain ⟨s', S, hd, hp, hafter⟩ := hs.exists_rewritten
      exact ⟨s', S.name, S.packing, S.occurrence, fun c hc =>
        s.plan?_of_reuse hs hc₀ S hd hafter (s.typed_of_declaredTypes c _)
          (s'.typed_of_declaredTypes c _) hu htype hc⟩
    | insert _ hfree hl I =>
      have S := I.succeeds hs hc₀
      exact ⟨I.sighting, S.name, S.packing, S.occurrence, fun c hc =>
        I.plan?_of_insert hs hc₀ hfree hl (s.typed_of_declaredTypes c _)
          (I.sighting.typed_of_declaredTypes c _) hc⟩
  have hcount := hspares.count_add_one hc₀ (by rw [(s.plan?_eq_some _ c₀).2 hs]; rfl)
  refine ⟨p', happly, fun y hy => hspares.eq_of_targets hy, hcount, fun hone => ?_⟩
  have hnone : s.extraction c₀ ∉ p'.extractions namePrefix := by
    rw [← List.count_eq_zero]
    exact Nat.add_right_cancel (hcount.trans hone)
  exact applyBy_of_notMem hnone

theorem apply_spares_merged :
    mergedFloat ∈ Program.merged.extractions "GLF_merged" ∧
      ∃ p', mergedFloat.apply .merged "GLF_merged" = .ok p' ∧
        ∀ y ∈ p'.extractions "GLF_merged", y.targets mergedFloat = true → y = mergedFloat := by
  have hx : mergedFloat ∈ Program.merged.extractions "GLF_merged" := by decide +kernel
  obtain ⟨p', happly, hspared, -⟩ := apply_spares hx
  exact ⟨hx, p', happly, hspared⟩

end Extraction

/-! ## One name in two places -/

/-- A merged vector of two floats that are both named `a`. -/
def Program.mergedTwice : Program :=
  let access (field : String) : Expr := .member (.ident "GLF_merged2_0_1_1_1_1_1aa") field
  ⟨.essl300, [.define .void "main" [] [.declare (.vector .float 2) "GLF_merged2_0_1_1_1_1_1aa",
    .expr (.assign (access "x") (.float (.ofNatural 1))), .expr (access "y")]]⟩

/-- Either float of that vector. -/
def Extraction.mergedTwin : Extraction := ⟨"GLF_merged2_0_1_1_1_1_1aa", "a", .scalar .float, 0⟩

/-- What was taken out is reported again, and can be taken out again. -/
theorem Extraction.mergedTwin_reported_again :
    mergedTwin ∈ Program.mergedTwice.extractions "GLF_merged" ∧
      ∃ p', mergedTwin.apply .mergedTwice "GLF_merged" = .ok p' ∧
        mergedTwin ∈ p'.extractions "GLF_merged" ∧ (mergedTwin.apply p' "GLF_merged").isOk := by
  have hx : mergedTwin ∈ Program.mergedTwice.extractions "GLF_merged" := by decide +kernel
  have hagain : ((mergedTwin.apply .mergedTwice "GLF_merged").toOption.any fun p' =>
      decide (mergedTwin ∈ p'.extractions "GLF_merged") &&
        (mergedTwin.apply p' "GLF_merged").isOk) = true := by decide +kernel
  obtain ⟨p', hp', h⟩ := Option.any_eq_true _ _ |>.mp hagain
  simp only [Bool.and_eq_true, decide_eq_true_eq] at h
  refine ⟨hx, p', ?_, h⟩
  cases happly : mergedTwin.apply .mergedTwice "GLF_merged" with
  | error e =>
    rw [happly] at hp'
    cases hp'
  | ok q =>
    rw [happly] at hp'
    rw [Option.some.inj hp']

end ShaderMorph
