-- When a constituent can be taken out, said of the whole program at once. The
-- analysis meets one event after the other and keeps flags; it tells frames
-- by their depths, and what stands in front of a vector by what it has read
-- so far. Where no name is declared twice in one frame, its flags say just
-- what a look at all declarations and all expressions says.
import ShaderMorph.Proofs.Extraction.Recurrence
import ShaderMorph.Proofs.Extraction.Selection
import ShaderMorph.Proofs.Globals.Remains
import ShaderMorph.Proofs.Walk.Locations

namespace ShaderMorph

namespace Program

variable (p : Program)

/-! ## The rule -/

/-- An expression picks the member `field` of the variable `v`. -/
structure Member (v : Declared) (field : String) (w : Visit) : Prop where
  visited : w ∈ p.visits
  expr : w.expr = .member (.ident v.symbol.name) field
  means : w.scope.lookup v.symbol.name = some v.symbol

/-- An expression is an element of the variable `v`, by its position. -/
structure Element (v : Declared) (w : Visit) : Prop where
  visited : w ∈ p.visits
  expr : ∃ position, w.expr = .index (.ident v.symbol.name) position
  means : w.scope.lookup v.symbol.name = some v.symbol

/-- An expression accesses the vector `v`, and all the components that it
picks are those of a constituent. -/
def AccessIn (v : Declared) (width : Nat) (c : Constituent) (w : Visit) : Prop :=
  ∃ field s, p.Member v field w ∧ Swizzle.parse? field width = some s ∧
    ∀ k ∈ s.components, c.Covers k

/-- A declaration of a name in the frame that `v` is declared in: it is there
already when `v` is met, or it is made at the depth of `v` while `v` is
bound. -/
structure FrameMate (v : Declared) (name : String) (d : Declared) : Prop where
  declared : d ∈ p.declared
  named : d.symbol.name = name
  frame : d.symbol ∈ ScopeEntry.innermost v.scope.entries ∨
    (d.symbol.depth = v.symbol.depth ∧ d.scope.binds v.symbol.id = true)

/-- A name stands for a variable of a frame around that of `v`. -/
structure OuterUse (v : Declared) (name : String) (w : Visit) : Prop where
  visited : w ∈ p.visits
  expr : w.expr = .ident name
  outer : ∃ u, w.scope.lookup name = some u ∧ u.depth < v.symbol.depth

/-- The frame of `v` has one declaration of the name of a constituent. It has
the type of the constituent, and every access sees it. -/
def Reusable (v : Declared) (elem : ElementKind) (width : Nat) (c : Constituent) : Prop :=
  ∃ d, (∀ d', p.FrameMate v c.name d' ↔ d' = d) ∧ d.symbol.type = c.type elem ∧
    ∀ w, p.AccessIn v width c w → w.scope.lookup c.name = some d.symbol

/-- The frame of `v` does not have the name of a constituent, and a new
declaration of it before the group of `v` would catch no use of the name. -/
structure Insertable (v : Declared) (width : Nat) (c : Constituent) : Prop where
  frame : ∀ d, ¬ p.FrameMate v c.name d
  accesses : ∀ w, p.AccessIn v width c w →
    ∀ u, w.scope.lookup c.name = some u → u.depth < v.symbol.depth
  bound : ∀ w, p.OuterUse v c.name w → w.scope.binds v.symbol.id = false
  group : ∀ w, p.OuterUse v c.name w → ∀ d ∈ p.declared,
    w.around.initializerOf = some d.symbol.id →
      d ≠ v ∧ d.location.precedesInGroup v.location = false
  sibling : v.location.acceptsSibling = true

/-- When a constituent of `v` can be taken out. -/
structure Extractable (namePrefix : String) (oracle : TypeOracle) (v : Declared)
    (elem : ElementKind) (width : Nat) (c : Constituent) : Prop where
  variableKind : v.symbol.kind ≠ .parameter
  type : v.symbol.type = .vector elem width
  packed : ∃ m, Provenance.decode v.symbol.name namePrefix = .ok m ∧ c ∈ m.constituents ∧
    m.span ≤ width
  unindexed : ∀ w, ¬ p.Element v w
  swizzled : ∀ field w, p.Member v field w → (Swizzle.parse? field width).isSome
  accessed : ∃ w, p.AccessIn v width c w
  typed : ∀ field w s, p.Member v field w → Swizzle.parse? field width = some s →
    s.components = List.range' c.offset c.width → oracle w.expr w.scope = some (c.type elem)
  name : p.Reusable v elem width c ∨ p.Insertable v width c

/-- What of that does not hang on the name of the constituent. -/
structure Accessible (namePrefix : String) (oracle : TypeOracle) (v : Declared)
    (elem : ElementKind) (width : Nat) (c : Constituent) : Prop where
  variableKind : v.symbol.kind ≠ .parameter
  type : v.symbol.type = .vector elem width
  packed : ∃ m, Provenance.decode v.symbol.name namePrefix = .ok m ∧ c ∈ m.constituents ∧
    m.span ≤ width
  unindexed : ∀ w, ¬ p.Element v w
  swizzled : ∀ field w, p.Member v field w → (Swizzle.parse? field width).isSome
  accessed : ∃ w, p.AccessIn v width c w
  typed : ∀ field w s, p.Member v field w → Swizzle.parse? field width = some s →
    s.components = List.range' c.offset c.width → oracle w.expr w.scope = some (c.type elem)

/-- A declaration serves as that of a constituent: it has the type, and every
access sees it. -/
def Serves (v : Declared) (elem : ElementKind) (width : Nat) (c : Constituent) (d : Declared) :
    Prop :=
  d.symbol.type = c.type elem ∧
    ∀ w, p.AccessIn v width c w → w.scope.lookup c.name = some d.symbol

/-- A declaration of a name in the frame of `v` that the scan counts. Of those
that are there already when `v` is met, it sees the newest one only. -/
structure Counted (v : Declared) (name : String) (d : Declared) : Prop where
  mate : p.FrameMate v name d
  newest : d.symbol ∈ ScopeEntry.innermost v.scope.entries →
    v.scope.lookupInCurrentFrame name = some d.symbol

/-- The scan makes a plan to take a constituent out of the vector `v`. -/
def Reports (namePrefix : String) (oracle : TypeOracle) (v : Declared) (c : Constituent)
    (plan : ExtractionPlan) : Prop :=
  ∃ vector ∈ (MergeFacts.ofEvents ⟨namePrefix, oracle, p.version.hasScalarSwizzles⟩ p.walk).vectors,
    vector.id = v.symbol.id ∧ ∃ facts ∈ vector.constituents,
      facts.constituent = c ∧ vector.plan? facts = some plan

end Program

/-! ## Accesses -/

theorem Constituent.isWithin_iff {s : Swizzle} {c : Constituent} :
    s.isWithin c.offset c.width = true ↔ ∀ k ∈ s.components, c.Covers k := by
  simp [Swizzle.isWithin, Covers, stop]

namespace Sighting

variable {namePrefix : String} {p : Program} (s : Sighting namePrefix p.walk)
  {rules : MergeRules} {c : Constituent}

theorem accessIn_iff {v : Visit} :
    p.AccessIn s.declared s.packing.width c v ↔ v ∈ p.visits ∧ ∃ swizzle, s.Picks c v swizzle := by
  constructor
  · rintro ⟨field, swizzle, h, hparse, hin⟩
    exact ⟨h.visited, swizzle, ⟨field, h.expr, hparse⟩, h.means, Constituent.isWithin_iff.2 hin⟩
  · rintro ⟨hv, swizzle, ⟨field, hexpr, hparse⟩, hmeans, hin⟩
    exact ⟨field, swizzle, ⟨hv, hexpr, hmeans⟩, hparse, Constituent.isWithin_iff.1 hin⟩

/-- The vector is used in no other way when it is not indexed, and no member
of it fails to be a swizzle. -/
theorem followed_iff :
    (∀ e ∈ s.after, MergedVector.opaqueBy s.declared.symbol.id s.packing.width e = false) ↔
      (∀ w, ¬ p.Element s.declared w) ∧
        ∀ field w, p.Member s.declared field w →
          (Swizzle.parse? field s.packing.width).isSome := by
  constructor
  · intro h
    have hnever : ∀ {w : Visit}, w ∈ p.visits →
        w.scope.lookup s.declared.symbol.name = some s.declared.symbol →
          ¬((∃ field, w.expr = .member (.ident s.declared.symbol.name) field ∧
              Swizzle.parse? field s.packing.width = none) ∨
            ∃ position, w.expr = .index (.ident s.declared.symbol.name) position) := by
      intro w hw hl huse
      have hwalk := Program.mem_visits.1 hw
      have hmeans := (Program.means_iff s.declared_mem hwalk _).2 ⟨rfl, hl⟩
      have hopaque := MergedVector.opaqueBy_visit.2 ⟨_, hmeans, huse⟩
      exact Bool.false_ne_true
        ((h _ (s.mem_after hwalk (ScopeTree.lookup_mem hl).1)).symm.trans hopaque)
    constructor
    · rintro w ⟨hw, hindex, hl⟩
      exact hnever hw hl (Or.inr hindex)
    · rintro field w ⟨hw, hexpr, hl⟩
      rw [Option.isSome_iff_ne_none]
      exact fun hparse => hnever hw hl (Or.inl ⟨field, hexpr, hparse⟩)
  · rintro ⟨hindex, hmember⟩ e he
    cases e with
    | declare d => rfl
    | visit w =>
      have hw := s.mem_walk he
      refine Bool.eq_false_iff.2 fun hopaque => ?_
      obtain ⟨base, hbase, huse⟩ := MergedVector.opaqueBy_visit.1 hopaque
      obtain ⟨rfl, hl⟩ := (Program.means_iff s.declared_mem hw base).1 hbase
      rcases huse with ⟨field, hexpr, hparse⟩ | hexpr
      · have hsome := hmember field w ⟨Program.mem_visits.2 hw, hexpr, hl⟩
        rw [hparse] at hsome
        cases hsome
      · exact hindex w ⟨Program.mem_visits.2 hw, hexpr, hl⟩

/-- The oracle is right about all the accesses of the whole constituent. -/
theorem typed_iff :
    (∀ e ∈ s.after, (s.watch c).mistypes rules e = false) ↔
      ∀ field w swizzle, p.Member s.declared field w →
        Swizzle.parse? field s.packing.width = some swizzle →
          swizzle.components = List.range' c.offset c.width →
            rules.oracle w.expr w.scope = some (c.type s.packing.elem) := by
  have hmistypes : ∀ {w : Visit}, .visit w ∈ p.walk →
      ((s.watch c).mistypes rules (.visit w) = false ↔
        ∀ swizzle, s.Picks c w swizzle → swizzle.components = List.range' c.offset c.width →
          rules.oracle w.expr w.scope = some (c.type s.packing.elem)) := by
    intro w hw
    simp only [Watch.mistypes, Option.any_eq_false, swizzle?_eq_some hw, Bool.and_eq_false_imp,
      bne_eq_false_iff_eq]
    refine forall_congr' fun swizzle => imp_congr_right fun _ => ?_
    exact imp_congr_left Swizzle.isExactly_iff
  constructor
  · rintro h field w swizzle ⟨hw, hexpr, hl⟩ hparse hexact
    have hmem := Program.mem_visits.1 hw
    refine (hmistypes hmem).1 (h _ (s.mem_after hmem (ScopeTree.lookup_mem hl).1)) swizzle
      ⟨⟨field, hexpr, hparse⟩, hl, Constituent.isWithin_iff.2 ?_⟩ hexact
    intro k hk
    rw [hexact, List.mem_range'_1] at hk
    exact hk
  · intro h e he
    cases e with
    | declare d => rfl
    | visit w =>
      refine (hmistypes (s.mem_walk he)).2 ?_
      rintro swizzle ⟨⟨field, hexpr, hparse⟩, hl, -⟩ hexact
      exact h field w swizzle ⟨Program.mem_visits.2 (s.mem_walk he), hexpr, hl⟩ hparse hexact

end Sighting

/-! ## Initializers -/

namespace Program

variable {p : Program}

/-- What stands in the initializer of a variable is met right before the
variable. -/
theorem initializer_adjacent {a b : List Event} {d : Declared} (h : p.walk = a ++ .declare d :: b)
    {w : Visit} (hw : w ∈ p.visits) (hinit : w.around.initializerOf = some d.symbol.id) :
    ∃ (a' : List Event) (vs : List Visit), a = a' ++ vs.map .visit ∧ w ∈ vs := by
  obtain ⟨before, m, after, hscript, -, hmem, hid⟩ := initializer_command hw hinit
  have hwalk : p.walk = (Command.run p.prototypes before .start ++
      (m.visits p.prototypes (Command.final before .start)).map .visit) ++
        .declare (m.declared (Command.final before .start)) ::
          Command.run p.prototypes after
            ((Command.declare m).next (Command.final before .start)) := by
    rw [walk_eq_run, hscript, Command.run_append]
    simp [Command.run, Command.events]
  have hd : m.declared (Command.final before .start) = d := by
    refine declared_ext (p := p) (mem_declared.2 ?_) (mem_declared.2 ?_) hid
    · rw [hwalk]
      simp
    · rw [h]
      simp
  rw [hd] at hwalk
  exact ⟨_, _, (walk_split_unique h hwalk).1, hmem⟩

theorem initializer_before {a b : List Event} {d : Declared} (h : p.walk = a ++ .declare d :: b)
    {w : Visit} (hw : w ∈ p.visits) (hinit : w.around.initializerOf = some d.symbol.id) :
    .visit w ∈ a := by
  obtain ⟨a', vs, rfl, hmem⟩ := initializer_adjacent h hw hinit
  exact List.mem_append_right _ (List.mem_map_of_mem hmem)

/-- The members of a group in front of a variable are met before it. -/
theorem precedes_before {a b : List Event} {v : Declared} (h : p.walk = a ++ .declare v :: b)
    {d : Declared} (hd : d ∈ p.declared)
    (hgroup : d.location.precedesInGroup v.location = true) :
    d = v ∨ .declare d ∈ a := by
  have hordered := p.locations_ordered
  rw [declared_eq, h, Event.declared_append, Event.declared_cons_declare, List.map_append,
    List.map_cons, List.pairwise_append, List.pairwise_cons] at hordered
  rw [mem_declared, h, List.mem_append, List.mem_cons] at hd
  rcases hd with hd | hd | hd
  · exact Or.inr hd
  · exact Or.inl (Event.declare.inj hd)
  · have hlater := hordered.2.1.1 _ (List.mem_map_of_mem (Event.mem_declared.2 hd))
    exact absurd (hlater.2.symm.trans hgroup) Bool.false_ne_true

/-- What stands in an initializer of the group, up to that of a variable, is met
before the variable. -/
theorem initializer_before_group {a b : List Event} {v : Declared}
    (h : p.walk = a ++ .declare v :: b) {w : Visit} (hw : w ∈ p.visits) {d : Declared}
    (hd : d ∈ p.declared) (hinit : w.around.initializerOf = some d.symbol.id)
    (hgroup : d = v ∨ d.location.precedesInGroup v.location = true) : .visit w ∈ a := by
  have hmet : d = v ∨ .declare d ∈ a := hgroup.elim Or.inl (precedes_before h hd)
  rcases hmet with rfl | hmet
  · exact initializer_before h hw hinit
  · obtain ⟨front, back, rfl⟩ := List.append_of_mem hmet
    rw [List.append_assoc, List.cons_append] at h
    exact List.mem_append_left _ (initializer_before h hw hinit)

end Program

theorem Visit.initializerRead?_eq_some {w : Visit} {r : InitializerRead} :
    w.initializerRead? = some r ↔ w.expr = .ident r.name ∧
      w.around.initializerOf = some r.reader ∧ r.depth = (w.scope.lookup r.name).map (·.depth) := by
  unfold initializerRead?
  constructor
  · intro h
    split at h
    · next name reader hexpr hinit =>
      cases h
      exact ⟨hexpr, hinit, rfl⟩
    · cases h
  · rintro ⟨hexpr, hinit, hdepth⟩
    simp only [hexpr, hinit, ← hdepth]

namespace Sighting

variable {namePrefix : String} {p : Program} (s : Sighting namePrefix p.walk)
  {rules : MergeRules} {c : Constituent}

/-- The analysis has seen all the initializers of the group that come first. -/
theorem groupReads_iff {name : String} :
    s.declared.groupReads s.before name = true ↔ ∃ w, p.OuterUse s.declared name w ∧
      ∃ d ∈ p.declared, w.around.initializerOf = some d.symbol.id ∧
        (d = s.declared ∨ d.location.precedesInGroup s.declared.location = true) := by
  have hread : s.declared.groupReads s.before name = true ↔ ∃ w ∈ Event.visits s.before,
      ∃ r, w.initializerRead? = some r ∧
        (r.reader = s.declared.symbol.id ∨ ∃ d ∈ s.declared :: Event.declared s.before,
          d.symbol.id = r.reader ∧ d.location.precedesInGroup s.declared.location = true) ∧
        r.name = name ∧ ∃ depth, r.depth = some depth ∧ depth < s.declared.symbol.depth := by
    simp only [Declared.groupReads, List.any_eq_true, List.mem_filterMap, Bool.and_eq_true,
      Bool.or_eq_true, beq_iff_eq, Option.any_eq_true, decide_eq_true_eq]
    constructor
    · rintro ⟨r, ⟨w, hw, hr⟩, ⟨hgroup, hname⟩, hdepth⟩
      exact ⟨w, hw, r, hr, hgroup, hname, hdepth⟩
    · rintro ⟨w, hw, r, hr, hgroup, hname, hdepth⟩
      exact ⟨r, ⟨w, hw, hr⟩, ⟨hgroup, hname⟩, hdepth⟩
  have hbefore : ∀ {e : Event}, e ∈ s.before → e ∈ p.walk := fun he => by
    rw [s.split]
    exact List.mem_append_left _ he
  rw [hread]
  constructor
  · rintro ⟨w, hw, r, hr, hgroup, rfl, depth, hdepth, hlt⟩
    obtain ⟨hexpr, hinit, hlookup⟩ := Visit.initializerRead?_eq_some.1 hr
    rw [hdepth, eq_comm, Option.map_eq_some_iff] at hlookup
    obtain ⟨u, hu, rfl⟩ := hlookup
    refine ⟨w, ⟨Program.mem_visits.2 (hbefore (Event.mem_visits.1 hw)), hexpr, u, hu, hlt⟩, ?_⟩
    rcases hgroup with hown | ⟨d, hd, hid, hprecedes⟩
    · exact ⟨s.declared, s.declared_mem, hown ▸ hinit, Or.inl rfl⟩
    · refine ⟨d, ?_, hid ▸ hinit, Or.inr hprecedes⟩
      rcases List.mem_cons.1 hd with rfl | hd
      · exact s.declared_mem
      · exact Program.mem_declared.2 (hbefore (Event.mem_declared.1 hd))
  · rintro ⟨w, ⟨hw, hexpr, u, hu, hlt⟩, d, hd, hinit, hgroup⟩
    have hmet : d = s.declared ∨ .declare d ∈ s.before := by
      rcases hgroup with rfl | hprecedes
      · exact Or.inl rfl
      · exact Program.precedes_before s.split hd hprecedes
    have hwbefore := Program.initializer_before_group s.split hw hd hinit hgroup
    refine ⟨w, Event.mem_visits.2 hwbefore, ⟨d.symbol.id, name, some u.depth⟩,
      Visit.initializerRead?_eq_some.2 ⟨hexpr, hinit, by simp [hu]⟩, ?_, rfl, u.depth, rfl, hlt⟩
    rcases hgroup with rfl | hprecedes
    · exact Or.inl rfl
    · rcases hmet with rfl | hmet
      · exact Or.inl rfl
      · exact Or.inr ⟨d, List.mem_cons_of_mem _ (Event.mem_declared.2 hmet), rfl, hprecedes⟩

/-- No outer variable of the name is used where the vector is bound. -/
theorem captures_iff :
    (∀ e ∈ s.after, (s.watch c).captures e = false) ↔
      ∀ w, p.OuterUse s.declared c.name w → w.scope.binds s.declared.symbol.id = false := by
  constructor
  · rintro h w ⟨hw, hexpr, u, hu, hlt⟩
    refine Bool.eq_false_iff.2 fun hbinds => ?_
    have hmem := Program.mem_visits.1 hw
    have hcaptures := h _ (s.mem_after hmem (Program.mem_of_binds s.declared_mem hmem hbinds))
    simp only [Watch.captures, hexpr] at hcaptures
    simp [hu, watch, hlt, hbinds] at hcaptures
  · intro h e he
    cases e with
    | declare d => rfl
    | visit w =>
      refine Bool.eq_false_iff.2 fun hcaptures => ?_
      cases hexpr : w.expr with
      | ident name =>
        simp only [Watch.captures, hexpr, Bool.and_eq_true, Option.any_eq_true, beq_iff_eq,
          decide_eq_true_eq] at hcaptures
        obtain ⟨⟨⟨u, hu, hlt⟩, hbinds⟩, rfl⟩ := hcaptures
        have hnone := h w ⟨Program.mem_visits.2 (s.mem_walk he), hexpr, u, hu, hlt⟩
        exact Bool.false_ne_true (hnone.symm.trans hbinds)
      | _ =>
        simp only [Watch.captures, hexpr] at hcaptures
        cases hcaptures

end Sighting

/-! ## Frames -/

/-- A symbol is the first of its name where the names differ. -/
theorem find?_name {us : List Symbol} (h : us.Pairwise fun a b => a.name ≠ b.name) {u : Symbol}
    (hu : u ∈ us) : us.find? (·.name = u.name) = some u := by
  obtain ⟨a, b, rfl⟩ := List.append_of_mem hu
  rw [List.pairwise_append] at h
  have hnone : a.find? (·.name = u.name) = none := by
    rw [List.find?_eq_none]
    exact fun x hx hname => h.2.2 x hx u List.mem_cons_self (by simpa using hname)
  simp [List.find?_append, hnone]

namespace Program

variable {p : Program}

/-- Where nothing is redeclared, the names of the innermost frame differ. -/
theorem innermost_pairwise (hp : ∀ d ∈ p.declared, d.redeclared = false) {e : Event}
    (he : e ∈ p.walk) :
    (ScopeEntry.innermost e.scope.entries).Pairwise fun a b => a.name ≠ b.name := by
  refine (grown_of_mem_walk he).innermost_pairwise fun d hd => ?_
  have hmark := (declared_scope hd).2.2
  rw [hp d hd, eq_comm, Option.isSome_eq_false_iff, Option.isNone_iff_eq_none] at hmark
  exact hmark

/-- What the innermost frame has under a name. -/
theorem mem_innermost_of_lookup {t : ScopeTree} {name : String} {u : Symbol}
    (h : t.lookupInCurrentFrame name = some u) :
    u ∈ ScopeEntry.innermost t.entries ∧ u.name = name := by
  rw [ScopeTree.lookupInCurrentFrame, ScopeTree.lookupInFrame_eq_find?] at h
  exact ⟨List.mem_of_find?_eq_some h, by simpa using List.find?_some h⟩

/-- When nothing is redeclared, that is all that it has of the name. -/
theorem lookupInCurrentFrame_iff (hp : ∀ d ∈ p.declared, d.redeclared = false) {e : Event}
    (he : e ∈ p.walk) {name : String} {u : Symbol} :
    e.scope.lookupInCurrentFrame name = some u ↔
      u ∈ ScopeEntry.innermost e.scope.entries ∧ u.name = name := by
  refine ⟨mem_innermost_of_lookup, ?_⟩
  rintro ⟨hu, rfl⟩
  rw [ScopeTree.lookupInCurrentFrame, ScopeTree.lookupInFrame_eq_find?]
  exact find?_name (innermost_pairwise hp he) hu

/-- A frame that has a name at all has a newest declaration of it. -/
theorem FrameMate.exists_lookup {v d : Declared} {name : String} (h : p.FrameMate v name d)
    (hin : d.symbol ∈ ScopeEntry.innermost v.scope.entries) :
    ∃ u, v.scope.lookupInCurrentFrame name = some u := by
  rw [← Option.isSome_iff_exists, ScopeTree.lookupInCurrentFrame,
    ScopeTree.lookupInFrame_eq_find?, List.find?_isSome]
  exact ⟨d.symbol, hin, decide_eq_true h.named⟩

/-- Where nothing is redeclared, every declaration of the frame is counted. -/
theorem counted_iff (hp : ∀ d ∈ p.declared, d.redeclared = false) {v d : Declared}
    (hv : v ∈ p.declared) {name : String} : p.Counted v name d ↔ p.FrameMate v name d := by
  refine ⟨Counted.mate, fun h => ⟨h, fun hin => ?_⟩⟩
  exact (lookupInCurrentFrame_iff hp (mem_declared.1 hv)).2 ⟨hin, h.named⟩

end Program

namespace Sighting

variable {namePrefix : String} {p : Program} (s : Sighting namePrefix p.walk)
  {rules : MergeRules} {c : Constituent}

theorem declare_mem : .declare s.declared ∈ p.walk := Program.mem_declared.1 s.declared_mem

theorem frameMate_depth {name : String} {d : Declared} (h : p.FrameMate s.declared name d) :
    d.symbol.depth = s.declared.symbol.depth := by
  rcases h.frame with hin | ⟨hdepth, -⟩
  · rw [(Program.declared_scope s.declared_mem).1]
    exact (Program.wellFormed_of_mem_walk s.declare_mem).framed.innermost_depth _ hin
  · exact hdepth

/-- What is made while the vector is bound is met behind it. -/
theorem declared_mem_after {d : Declared} (hd : d ∈ p.declared)
    (hbinds : d.scope.binds s.declared.symbol.id = true) : d ∈ Event.declared s.after := by
  have hmem := Program.mem_declared.1 hd
  have hbound := Program.mem_of_binds s.declared_mem hmem hbinds
  rw [s.split, List.mem_append, List.mem_cons] at hmem
  rcases hmem with hmem | hmem | hmem
  · exact absurd (Program.id_lt_of_before s.split hmem hbound) (Nat.lt_irrefl _)
  · obtain rfl := Event.declare.inj hmem
    exact absurd ((Program.declared_scope s.declared_mem).2.1 _ hbound) (Nat.lt_irrefl _)
  · exact Event.mem_declared.2 hmem

/-- What is met behind the vector is newer than what was there before. -/
theorem id_lt_of_after {u : Symbol} (hu : u ∈ s.declared.scope.symbols) {d : Declared}
    (hd : d ∈ Event.declared s.after) : u.id < d.symbol.id := by
  have hsorted := p.declared_pairwise
  rw [Program.declared_eq, s.declared_events, List.pairwise_append, List.pairwise_cons] at hsorted
  exact Nat.lt_trans ((Program.declared_scope s.declared_mem).2.1 u hu) (hsorted.2.1.1 d hd)

/-- The symbols that the analysis counts. -/
theorem mem_frameSymbols {u : Symbol} :
    u ∈ s.frameSymbols c ↔ ∃ d, p.Counted s.declared c.name d ∧ d.symbol = u := by
  have hjoins : ∀ d : Declared, (s.watch c).joins d = true ↔
      d.scope.depth = s.declared.symbol.depth ∧ d.scope.binds s.declared.symbol.id = true ∧
        d.symbol.name = c.name := by
    intro d
    simp [Watch.joins, watch, and_assoc]
  unfold frameSymbols
  rw [List.mem_append, Option.mem_toList]
  constructor
  · rintro (hlookup | hu)
    · obtain ⟨hin, hname⟩ := Program.mem_innermost_of_lookup hlookup
      obtain ⟨d, hd, rfl, -⟩ :=
        Program.declared_of_bound s.declare_mem (ScopeEntry.innermost_subset _ hin)
      exact ⟨d, ⟨⟨hd, hname, Or.inl hin⟩, fun _ => hlookup⟩, rfl⟩
    · obtain ⟨d, hd, rfl⟩ := List.mem_map.1 hu
      obtain ⟨hafter, hj⟩ := List.mem_filter.1 hd
      obtain ⟨hdepth, hbinds, hname⟩ := (hjoins d).1 hj
      have hd := Program.mem_declared.2 (s.mem_walk (Event.mem_declared.1 hafter))
      refine ⟨d, ⟨⟨hd, hname, Or.inr ⟨(Program.declared_scope hd).1.trans hdepth, hbinds⟩⟩,
        fun hin => ?_⟩, rfl⟩
      exact absurd (s.id_lt_of_after (ScopeEntry.innermost_subset _ hin) hafter) (Nat.lt_irrefl _)
  · rintro ⟨d, ⟨⟨hd, hname, hframe⟩, hnewest⟩, rfl⟩
    rcases hframe with hin | ⟨hdepth, hbinds⟩
    · exact Or.inl (hnewest hin)
    · refine Or.inr (List.mem_map_of_mem (List.mem_filter.2 ⟨s.declared_mem_after hd hbinds, ?_⟩))
      exact (hjoins d).2 ⟨(Program.declared_scope hd).1.symm.trans hdepth, hbinds, hname⟩

/-- None of them is counted twice. -/
theorem frameSymbols_pairwise (c : Constituent) :
    (s.frameSymbols c).Pairwise fun a b => a.id < b.id := by
  have hsorted := p.declared_pairwise
  rw [Program.declared_eq, s.declared_events, List.pairwise_append, List.pairwise_cons] at hsorted
  obtain ⟨-, ⟨-, hafter⟩, -⟩ := hsorted
  unfold frameSymbols
  refine List.pairwise_append.2 ⟨?_, ?_, fun a ha b hb => ?_⟩
  · cases s.declared.scope.lookupInCurrentFrame c.name <;> simp
  · exact List.pairwise_map.2 (hafter.filter _)
  · obtain ⟨d, hd, rfl⟩ := List.mem_map.1 hb
    obtain ⟨hin, -⟩ := Program.mem_innermost_of_lookup (Option.mem_toList.1 ha)
    exact s.id_lt_of_after (ScopeEntry.innermost_subset _ hin) (List.mem_of_mem_filter hd)

/-- When none is counted, there is none. -/
theorem frameSymbols_eq_nil :
    s.frameSymbols c = [] ↔ ∀ d, ¬ p.FrameMate s.declared c.name d := by
  rw [List.eq_nil_iff_forall_not_mem]
  constructor
  · intro h d hd
    by_cases hin : d.symbol ∈ ScopeEntry.innermost s.declared.scope.entries
    · obtain ⟨u, hu⟩ := hd.exists_lookup hin
      exact h u (List.mem_append_left _ (Option.mem_toList.2 hu))
    · exact h d.symbol (s.mem_frameSymbols.2 ⟨d, ⟨hd, fun hin' => absurd hin' hin⟩, rfl⟩)
  · intro h u hu
    obtain ⟨d, hd, -⟩ := s.mem_frameSymbols.1 hu
    exact h d hd.mate

theorem frameSymbols_eq_singleton {d : Declared} (hd : p.Counted s.declared c.name d) :
    s.frameSymbols c = [d.symbol] ↔ ∀ d', p.Counted s.declared c.name d' → d' = d := by
  constructor
  · intro h d' hd'
    have hmem : d'.symbol ∈ s.frameSymbols c := s.mem_frameSymbols.2 ⟨d', hd', rfl⟩
    rw [h, List.mem_singleton] at hmem
    exact Program.declared_ext hd'.mate.declared hd.mate.declared (congrArg Symbol.id hmem)
  · intro h
    have hall : ∀ u ∈ s.frameSymbols c, u = d.symbol := by
      intro u hu
      obtain ⟨d', hd', rfl⟩ := s.mem_frameSymbols.1 hu
      rw [h d' hd']
    have hmem : d.symbol ∈ s.frameSymbols c := s.mem_frameSymbols.2 ⟨d, hd, rfl⟩
    have hpairwise := s.frameSymbols_pairwise c
    cases hsymbols : s.frameSymbols c with
    | nil =>
      rw [hsymbols] at hmem
      cases hmem
    | cons u us =>
      rw [hsymbols, List.forall_mem_cons] at hall
      rw [hsymbols, List.pairwise_cons] at hpairwise
      cases us with
      | nil => rw [hall.1]
      | cons t us =>
        have hlt := hpairwise.1 t List.mem_cons_self
        rw [hall.1, hall.2 t List.mem_cons_self] at hlt
        exact absurd hlt (Nat.lt_irrefl _)

/-! ## The two ways out -/

/-- One of the ways to take a constituent out is open. -/
theorem exists_outcome_iff :
    (∃ o, s.Outcome rules c o) ↔
      (∃ d, (∀ d', p.Counted s.declared c.name d' ↔ d' = d) ∧
        p.Serves s.declared s.packing.elem s.packing.width c d) ∨
      p.Insertable s.declared s.packing.width c := by
  have haccesses : s.Free rules c → ∀ w, p.AccessIn s.declared s.packing.width c w →
      ∀ u, w.scope.lookup c.name = some u → u.depth < s.declared.symbol.depth := by
    intro hfree w hw
    obtain ⟨hw, swizzle, hpicks⟩ := s.accessIn_iff.1 hw
    exact (s.accesses_outer rules).1 hfree.accesses w hw swizzle hpicks
  constructor
  · rintro ⟨o, ho⟩
    cases ho with
    | reuse u hu htype hall =>
      left
      obtain ⟨d, hd, rfl⟩ := s.mem_frameSymbols.1 (hu ▸ List.mem_singleton_self u)
      have hone := (s.frameSymbols_eq_singleton hd).1 hu
      refine ⟨d, fun d' => ⟨hone d', fun h => h ▸ hd⟩, htype, fun w hw => ?_⟩
      obtain ⟨hw, swizzle, hpicks⟩ := s.accessIn_iff.1 hw
      exact s.lookup_of_reuse hd.mate.declared hall hw hpicks
    | insert hfree hsibling =>
      right
      refine ⟨s.frameSymbols_eq_nil.1 hfree.frame, haccesses hfree,
        s.captures_iff.1 hfree.captures, fun w hw d hd hinit => ?_, hsibling⟩
      have hreads := Bool.eq_false_iff.1 hfree.reads
      rw [Ne, s.groupReads_iff] at hreads
      refine ⟨fun hself => hreads ⟨w, hw, d, hd, hinit, Or.inl hself⟩,
        Bool.eq_false_iff.2 fun hgroup => hreads ⟨w, hw, d, hd, hinit, Or.inr hgroup⟩⟩
  · rintro (⟨d, hone, htype, hall⟩ | h)
    · have hd := (hone d).2 rfl
      have hsymbols := (s.frameSymbols_eq_singleton hd).2 fun d' => (hone d').1
      refine ⟨none, .reuse d.symbol hsymbols htype ?_⟩
      refine (forall_accesses rules (P := (· = .sameFrame d.symbol.id))).2
        fun w hw swizzle hpicks => ?_
      exact Resolution.ofLookup_sameFrame.2
        ⟨d.symbol, hall w (s.accessIn_iff.2 ⟨hw, swizzle, hpicks⟩), s.frameMate_depth hd.mate, rfl⟩
    · refine ⟨_, .insert ⟨s.frameSymbols_eq_nil.2 h.frame, Bool.eq_false_iff.2 fun hreads => ?_,
        s.captures_iff.2 h.bound, ?_⟩ h.sibling⟩
      · obtain ⟨w, hw, d, hd, hinit, hgroup⟩ := s.groupReads_iff.1 hreads
        obtain ⟨hself, hother⟩ := h.group w hw d hd hinit
        rcases hgroup with hgroup | hgroup
        · exact hself hgroup
        · exact Bool.false_ne_true (hother.symm.trans hgroup)
      · refine (s.accesses_outer rules).2 fun w hw swizzle hpicks => ?_
        exact h.accesses w (s.accessIn_iff.2 ⟨hw, swizzle, hpicks⟩)

end Sighting

/-! ## The scan -/

namespace Program

variable {p : Program}

theorem exists_sighting {namePrefix : String} {v : Declared} (hv : v ∈ p.declared) {m : Packing}
    (hm : v.symbol.packing? namePrefix = some m) :
    ∃ s : Sighting namePrefix p.walk, s.declared = v ∧ s.packing = m := by
  obtain ⟨a, b, hab⟩ := List.append_of_mem (mem_declared.1 hv)
  exact ⟨⟨a, v, b, m, hab, hm⟩, rfl, rfl⟩

/-- What the scan reports of a vector is what it plans where the vector is
sighted. -/
theorem reports_iff {namePrefix : String} {oracle : TypeOracle} {v : Declared}
    (hv : v ∈ p.declared) {c : Constituent} {plan : ExtractionPlan} :
    p.Reports namePrefix oracle v c plan ↔ ∃ s : Sighting namePrefix p.walk, s.declared = v ∧
      c ∈ s.packing.constituents ∧
        s.plan? ⟨namePrefix, oracle, p.version.hasScalarSwizzles⟩ c = some plan := by
  constructor
  · rintro ⟨vector, hvector, hid, facts, hfacts, rfl, hplan⟩
    obtain ⟨s, rfl⟩ := (MergeFacts.mem_vectors _).1 hvector
    obtain ⟨c, hc, rfl⟩ := List.mem_map.1 hfacts
    exact ⟨s, declared_ext s.declared_mem hv hid, hc, hplan⟩
  · rintro ⟨s, rfl, hc, hplan⟩
    exact ⟨_, (MergeFacts.mem_vectors _).2 ⟨s, rfl⟩, rfl, _, List.mem_map_of_mem hc, rfl, hplan⟩

/-- A constituent is reported just when it can be accessed, and either the
frame of the vector has one declaration of its name that the scan counts, and
that one serves, or a new declaration of it can be put there. -/
theorem exists_reports_iff_counted {namePrefix : String} {oracle : TypeOracle} {v : Declared}
    (hv : v ∈ p.declared) {c : Constituent} :
    (∃ plan, p.Reports namePrefix oracle v c plan) ↔
      ∃ elem width, p.Accessible namePrefix oracle v elem width c ∧
        ((∃ d, (∀ d', p.Counted v c.name d' ↔ d' = d) ∧ p.Serves v elem width c d) ∨
          p.Insertable v width c) := by
  simp only [reports_iff hv]
  constructor
  · rintro ⟨plan, s, rfl, hc, hplan⟩
    obtain ⟨hfollowed, htyped, haccessed, houtcome⟩ :=
      s.plan?_isSome.1 (Option.isSome_iff_exists.2 ⟨plan, hplan⟩)
    obtain ⟨hkind, htype, m, hdecode, hspan, hcs⟩ := Symbol.packing?_eq_some.1 s.packed
    obtain ⟨hindex, hmember⟩ := s.followed_iff.1 hfollowed
    obtain ⟨w, hw⟩ := haccessed
    exact ⟨s.packing.elem, s.packing.width,
      ⟨hkind, htype, ⟨m, hdecode, hcs ▸ hc, hspan⟩, hindex, hmember, ⟨w, s.accessIn_iff.2 hw⟩,
        s.typed_iff.1 htyped⟩, s.exists_outcome_iff.1 houtcome⟩
  · rintro ⟨elem, width, h, hname⟩
    obtain ⟨m, hdecode, hc, hspan⟩ := h.packed
    have hpacking : v.symbol.packing? namePrefix = some ⟨elem, width, m.constituents⟩ :=
      Symbol.packing?_eq_some.2 ⟨h.variableKind, h.type, m, hdecode, hspan, rfl⟩
    obtain ⟨s, rfl, hs⟩ := exists_sighting hv hpacking
    have hsome : (s.plan? ⟨namePrefix, oracle, p.version.hasScalarSwizzles⟩ c).isSome := by
      obtain ⟨w, hw⟩ := h.accessed
      refine s.plan?_isSome.2 ⟨s.followed_iff.2 ?_, s.typed_iff.2 ?_, ⟨w, s.accessIn_iff.1 ?_⟩,
        s.exists_outcome_iff.2 ?_⟩
      all_goals rw [hs]
      · exact ⟨h.unindexed, h.swizzled⟩
      · exact h.typed
      · exact hw
      · exact hname
    obtain ⟨plan, hplan⟩ := Option.isSome_iff_exists.1 hsome
    exact ⟨plan, s, rfl, by rwa [hs], hplan⟩

theorem extractable_iff {namePrefix : String} {oracle : TypeOracle} {v : Declared}
    {elem : ElementKind} {width : Nat} {c : Constituent} :
    p.Extractable namePrefix oracle v elem width c ↔
      p.Accessible namePrefix oracle v elem width c ∧
        (p.Reusable v elem width c ∨ p.Insertable v width c) := by
  constructor
  · rintro ⟨hkind, htype, hpacked, hindex, hmember, haccessed, htyped, hname⟩
    exact ⟨⟨hkind, htype, hpacked, hindex, hmember, haccessed, htyped⟩, hname⟩
  · rintro ⟨⟨hkind, htype, hpacked, hindex, hmember, haccessed, htyped⟩, hname⟩
    exact ⟨hkind, htype, hpacked, hindex, hmember, haccessed, htyped, hname⟩

/-- Where nothing is redeclared, a constituent is reported just when the rule
lets it be taken out. -/
theorem exists_reports_iff (hp : ∀ d ∈ p.declared, d.redeclared = false) {namePrefix : String}
    {oracle : TypeOracle} {v : Declared} (hv : v ∈ p.declared) {c : Constituent} :
    (∃ plan, p.Reports namePrefix oracle v c plan) ↔
      ∃ elem width, p.Extractable namePrefix oracle v elem width c := by
  simp only [exists_reports_iff_counted hv, counted_iff hp hv, extractable_iff, Reusable, Serves]

/-- What is reported is named after the vector, and has the name of the
constituent and the type that it has in the vector. -/
theorem Reports.extraction {namePrefix : String} {oracle : TypeOracle} {v : Declared}
    {c : Constituent} {plan : ExtractionPlan} (h : p.Reports namePrefix oracle v c plan)
    (hv : v ∈ p.declared) :
    plan.extraction.vector = v.symbol.name ∧ plan.extraction.component = c.name ∧
      ∃ elem width, v.symbol.type = .vector elem width ∧ plan.extraction.type = c.type elem := by
  obtain ⟨s, rfl, -, hplan⟩ := (reports_iff hv).1 h
  obtain ⟨-, htype, -⟩ := Symbol.packing?_eq_some.1 s.packed
  rw [((s.plan?_eq_some _ c).1 hplan).extraction]
  exact ⟨rfl, rfl, s.packing.elem, s.packing.width, htype, rfl⟩

/-- The scan decides the rule. Its plans are those that it reports for the
vectors of the program, and where nothing is redeclared in a frame it reports
a constituent just when the rule lets it be taken out. What it reports is named
after the vector, and has the name and the type of the constituent. -/
theorem scan_decides_rule (p : Program) (namePrefix : String) (oracle : TypeOracle)
    (hp : ∀ d ∈ p.declared, d.redeclared = false) :
    (∀ plan, plan ∈ p.extractionPlans namePrefix oracle ↔
        ∃ v ∈ p.declared, ∃ c, p.Reports namePrefix oracle v c plan) ∧
      (∀ v ∈ p.declared, ∀ c, (∃ plan, p.Reports namePrefix oracle v c plan) ↔
        ∃ elem width, p.Extractable namePrefix oracle v elem width c) ∧
      ∀ v ∈ p.declared, ∀ c plan, p.Reports namePrefix oracle v c plan →
        plan.extraction.vector = v.symbol.name ∧ plan.extraction.component = c.name ∧
          ∃ elem width, v.symbol.type = .vector elem width ∧
            plan.extraction.type = c.type elem := by
  refine ⟨fun plan => ?_, fun v hv c => exists_reports_iff hp hv,
    fun v hv c plan hreports => hreports.extraction hv⟩
  rw [extractionPlans, MergeFacts.mem_plans]
  constructor
  · rintro ⟨s, c, hc, hplan⟩
    exact ⟨s.declared, s.declared_mem, c, (reports_iff s.declared_mem).2
      ⟨s, rfl, hc, (s.plan?_eq_some _ c).2 hplan⟩⟩
  · rintro ⟨v, hv, c, h⟩
    obtain ⟨s, -, hc, hplan⟩ := (reports_iff hv).1 h
    exact ⟨s, c, hc, (s.plan?_eq_some _ c).1 hplan⟩

theorem scan_decides_rule_merged :
    (∀ d ∈ Program.merged.declared, d.redeclared = false) ∧
      ∃ v ∈ Program.merged.declared, ∃ c elem width,
        Program.merged.Extractable "GLF_merged" Program.merged.declaredTypes v elem width c ∧
          ∃ x ∈ Program.merged.extractions "GLF_merged",
            x.vector = v.symbol.name ∧ x.component = c.name ∧ x.type = c.type elem := by
  have hp : ∀ d ∈ Program.merged.declared, d.redeclared = false := by decide +kernel
  obtain ⟨hplans, hrule, hcontent⟩ :=
    scan_decides_rule .merged "GLF_merged" Program.merged.declaredTypes hp
  have hne : Program.merged.extractionPlans "GLF_merged" Program.merged.declaredTypes ≠ [] := by
    decide +kernel
  obtain ⟨plan, hplan⟩ := List.exists_mem_of_ne_nil _ hne
  obtain ⟨v, hv, c, hreports⟩ := (hplans plan).1 hplan
  obtain ⟨elem, width, hextractable⟩ := (hrule v hv c).1 ⟨plan, hreports⟩
  obtain ⟨hvector, hcomponent, elem', width', hshape, htype⟩ := hcontent v hv c plan hreports
  obtain ⟨rfl, -⟩ := DataType.vector.inj (hextractable.type.symm.trans hshape)
  exact ⟨hp, v, hv, c, elem, width, hextractable, plan.extraction,
    List.mem_map_of_mem hplan, hvector, hcomponent, htype⟩

end Program

end ShaderMorph
