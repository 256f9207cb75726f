-- What a new declaration of a constituent would catch, if it could: a use of
-- the name from which the analysis did not see an outer variable, or a
-- declaration of it in the same frame. Each of these would have kept the
-- constituent from being taken out.
import ShaderMorph.Proofs.Extraction.Applied
import ShaderMorph.Proofs.Extraction.MergedNames

namespace ShaderMorph

namespace Sighting

/-- A constituent has a shorter name than its vector. -/
theorem name_lt {namePrefix : String} {events : List Event} (s : Sighting namePrefix events)
    {c : Constituent} (hc : c ∈ s.packing.constituents) :
    c.name.utf8ByteSize < s.declared.symbol.name.utf8ByteSize := by
  obtain ⟨-, -, provenance, hdecode, -, hcs⟩ := Symbol.packing?_eq_some.1 s.packed
  exact Provenance.name_lt_of_decode hdecode (hcs ▸ hc)

theorem component_ne {namePrefix : String} {events : List Event} (s : Sighting namePrefix events)
    {c : Constituent} (hc : c ∈ s.packing.constituents) : c.name ≠ s.declared.symbol.name :=
  fun h => absurd (congrArg String.utf8ByteSize h) (Nat.ne_of_lt (s.name_lt hc))

namespace Free

variable {namePrefix : String} {events : List Event} {s : Sighting namePrefix events}
  {rules : MergeRules} {c : Constituent}

theorem lookup_eq_none (h : s.Free rules c) :
    s.declared.scope.lookupInCurrentFrame c.name = none := by
  have := (List.append_eq_nil_iff.1 h.frame).1
  simpa using this

theorem joins_eq_false (h : s.Free rules c) {d : Declared} (hd : .declare d ∈ s.after) :
    (s.watch c).joins d = false := by
  have := (List.append_eq_nil_iff.1 h.frame).2
  rw [List.map_eq_nil_iff, List.filter_eq_nil_iff] at this
  simpa using this d (Event.mem_declared.2 hd)

end Free

namespace Inserted

variable {namePrefix : String} {p p' : Program} {s : Sighting namePrefix p.walk}
  {rules : MergeRules} {c : Constituent} {r : Replacement} (I : s.Inserted c r p')

/-- The new declaration as the walk meets it. -/
def new : Declared := I.enlargement.new

/-- The scope that the new variable is declared in. -/
def base : ScopeTree := I.new.scope

/-! ## Scopes in which the new variable is bound -/

theorem new_mem : I.new ∈ p'.declared := by
  rw [Program.declared_eq, I.enlargement.walk', Event.mem_declared]
  exact List.mem_append_right _ List.mem_cons_self

theorem base_wellFormed : I.base.WellFormed := by
  exact Program.wellFormed_of_mem_walk (Program.mem_declared.1 I.new_mem)

theorem base_lt : ∀ u ∈ I.base.symbols, u.id < I.new.symbol.id :=
  (Program.declared_scope I.new_mem).2.1

theorem new_depth : I.new.symbol.depth = I.base.depth := (Program.declared_scope I.new_mem).1

theorem stacked_vector : I.base.Stacked I.new.symbol.id s.declared.scope := by
  have hs := I.enlargement.stacked (.declare I.enlargement.vector) (by simp)
  rw [I.vector_eq] at hs
  exact hs

theorem vector_depth : s.declared.symbol.depth = I.base.depth := by
  obtain ⟨-, -, hd, -⟩ := I.stacked_vector
  rw [(Program.declared_scope s.declared_mem).1, hd]

theorem new_le : I.new.symbol.id ≤ s.declared.symbol.id := by
  have hv := Program.declared_id_eq I.enlargement.walk
  rw [I.vector_eq, Event.declared_append, List.length_append] at hv
  have hn := I.enlargement.id_eq
  unfold new
  omega

/-- A scope that has the vector is built on the one of the new variable. -/
theorem builtOn {e : Event} (he : e ∈ p.walk) (hb : s.declared.symbol ∈ e.scope.symbols) :
    I.base.BuiltOn I.new.symbol.id e.scope := by
  obtain ⟨d, hd, hsym, above, hentries⟩ := Program.declared_of_bound he hb
  obtain rfl := Program.declared_ext hd s.declared_mem (by rw [hsym])
  obtain ⟨lower, hlower, hids⟩ := I.stacked_vector.builtOn
  refine ⟨above ++ .binding s.declared.symbol :: lower, by simp [hentries, hlower], ?_⟩
  have hdec := (Program.wellFormed_of_mem_walk he).decreasing
  rw [ScopeTree.symbols, hentries, ScopeEntry.symbols_append, ScopeEntry.symbols_binding,
    List.pairwise_append] at hdec
  intro u hu
  rw [ScopeEntry.symbols_append, ScopeEntry.symbols_binding, List.mem_append, List.mem_cons] at hu
  rcases hu with hu | rfl | hu
  · exact Nat.le_of_lt (Nat.lt_of_le_of_lt I.new_le (hdec.2.2 u hu _ List.mem_cons_self))
  · exact I.new_le
  · exact hids u hu

/-- In the frame of the new variable its name is not declared yet. -/
theorem base_free (h : s.Free rules c) : I.base.lookupInCurrentFrame c.name = none := by
  rw [← Option.not_isSome_iff_eq_none]
  intro hb
  have := I.stacked_vector.of_base hb
  rw [h.lookup_eq_none] at this
  cases this

/-- An older variable of the name is an outer one. -/
theorem depth_lt (h : s.Free rules c) {t : ScopeTree} (ht : I.base.BuiltOn I.new.symbol.id t)
    {u : Symbol} (hl : t.lookup c.name = some u) (hu : u.id < I.new.symbol.id) :
    u.depth < I.base.depth := by
  have hbase := ht.lookup hl hu
  refine Nat.lt_of_le_of_ne (I.base_wellFormed.lookup_depth_le hbase) fun hd => ?_
  have hfree := I.base_free h
  rw [I.base_wellFormed.lookupInCurrentFrame_eq, hbase] at hfree
  simp [Option.filter, hd] at hfree

/-- And an outer one is older. -/
theorem id_lt {t : ScopeTree} (ht : I.base.BuiltOn I.new.symbol.id t) (hw : t.WellFormed)
    {u : Symbol} (hu : u ∈ t.symbols) (hd : u.depth < I.base.depth) : u.id < I.new.symbol.id := by
  refine Nat.lt_of_not_le fun hle => ?_
  exact Nat.not_lt.2 (ht.le_depth hw I.base_wellFormed I.base_lt hu hle) hd

/-! ## Uses of the name -/

/-- A use of the name in the group, in front of the vector, means nothing older
than the new variable. -/
theorem le_id_of_lead (h : s.Free rules c) {v w : Visit} (hv : .visit v ∈ s.before)
    (hw : .visit w ∈ I.enlargement.lead) (hscope : w.scope = v.scope)
    (haround : w.around.initializerOf = v.around.initializerOf)
    (hexpr : v.expr = .ident c.name) {u : Symbol}
    (hl : v.scope.lookup c.name = some u) : I.new.symbol.id ≤ u.id := by
  refine Nat.le_of_not_lt fun hu => ?_
  have hstack : I.base.Stacked I.new.symbol.id v.scope := by
    have hs := I.enlargement.stacked (.visit w) (List.mem_append_left _ hw)
    rw [← hscope]
    exact hs
  have hdepth := I.depth_lt h hstack.builtOn hl hu
  obtain ⟨d, hd, hinit, hprec⟩ := I.enlargement.reads w hw
  rw [I.vector_eq] at hd hprec
  have hmem : d ∈ s.declared :: Event.declared s.before := by
    rcases hd with hd | rfl
    · refine List.mem_cons_of_mem _ ?_
      rw [← I.before_rewritten.declared, ← I.before_eq, Event.declared_append]
      exact List.mem_append_right _ (Event.mem_declared.2 hd)
    · exact List.mem_cons_self
  have hread : v.initializerRead? = some ⟨d.symbol.id, c.name, some u.depth⟩ := by
    rw [haround] at hinit
    simp [Visit.initializerRead?, hexpr, hinit, hl]
  have htrue : s.declared.groupReads s.before c.name = true := by
    refine List.any_eq_true.2 ⟨_, List.mem_filterMap.2 ⟨v, Event.mem_visits.2 hv, hread⟩, ?_⟩
    simp only [Bool.and_eq_true, Bool.or_eq_true, beq_self_eq_true, and_true, Option.any_some,
      decide_eq_true_eq]
    refine ⟨Or.inr (List.any_eq_true.2 ⟨d, hmem, ?_⟩), ?_⟩
    · simp [hprec]
    · rwa [I.vector_depth]
  exact Bool.false_ne_true (h.reads.symm.trans htrue)

/-- So does a use of the name behind the vector. -/
theorem le_id_of_after (h : s.Free rules c) {v : Visit} (hv : .visit v ∈ s.after)
    (hexpr : v.expr = .ident c.name) (hb : s.declared.symbol ∈ v.scope.symbols) {u : Symbol}
    (hl : v.scope.lookup c.name = some u) : I.new.symbol.id ≤ u.id := by
  refine Nat.le_of_not_lt fun hu => ?_
  have hdepth := I.depth_lt h (I.builtOn (s.mem_walk hv) hb) hl hu
  have htrue : (s.watch c).captures (.visit v) = true := by
    have hbinds : v.scope.binds s.declared.symbol.id = true :=
      ScopeTree.binds_iff.2 ⟨_, hb, rfl⟩
    rw [← I.vector_depth] at hdepth
    simp [Watch.captures, hexpr, hl, watch, hbinds, hdepth]
  exact Bool.false_ne_true ((h.captures _ hv).symm.trans htrue)

/-- Where the constituent is accessed, its name means nothing that is newer
than the new variable. -/
theorem id_lt_of_access (h : s.Free rules c) {v : Visit} (hv : v ∈ p.visits) {swizzle : Swizzle}
    (hp : s.Picks c v swizzle) {u : Symbol} (hl : v.scope.lookup c.name = some u) :
    u.id < I.new.symbol.id := by
  have hwalk : .visit v ∈ p.walk := Program.mem_visits.1 hv
  have hdepth := (s.accesses_outer rules).1 h.accesses v hv swizzle hp u hl
  rw [I.vector_depth] at hdepth
  exact I.id_lt (I.builtOn hwalk (ScopeTree.lookup_mem hp.means).1)
    (Program.wellFormed_of_mem_walk hwalk) (ScopeTree.lookup_mem hl).1 hdepth

/-! ## Declarations of the name -/

/-- The new declaration is the first of its name in its frame. -/
theorem new_redeclared (h : s.Free rules c) : I.new.redeclared = false := by
  have hr : I.new.redeclared = (I.base.lookupInCurrentFrame c.name).isSome := I.redeclared_eq
  rw [hr, I.base_free h]
  rfl

/-- No member of the group in front of the vector has the name. -/
theorem name_ne_of_lead (h : s.Free rules c) {d : Declared}
    (hd : .declare d ∈ I.enlargement.lead) : d.symbol.name ≠ c.name := by
  intro hname
  obtain ⟨hmem, -, hid⟩ := I.enlargement.bound d hd
  rw [I.vector_eq] at hmem
  have hframe := I.stacked_vector.of_mem I.base_lt hmem hid
  rw [hname, h.lookup_eq_none] at hframe
  cases hframe

/-- Behind the vector, a declaration of the name is one of another frame, or
one where the vector is not in scope. -/
theorem frame_eq_of_after (h : s.Free rules c) {d : Declared} (hd : .declare d ∈ s.after)
    {t : ScopeTree} (ht : t.WellFormed)
    (hg : d.scope.Grafted I.new.symbol (d.scope.binds I.new.symbol.id = true) t)
    (htied : d.scope.binds I.new.symbol.id = d.scope.binds s.declared.symbol.id) :
    (t.lookupInCurrentFrame d.symbol.name).isSome =
      (d.scope.lookupInCurrentFrame d.symbol.name).isSome := by
  have hwalk := s.mem_walk hd
  have hw : d.scope.WellFormed := Program.wellFormed_of_mem_walk hwalk
  have hkept := hg.kept d.symbol.name
  by_cases hcaught : d.scope.binds I.new.symbol.id = true ∧ I.new.symbol.name = d.symbol.name ∧
      ∀ u, d.scope.lookup d.symbol.name = some u → u.id < I.new.symbol.id
  · obtain ⟨hbinds, hname, hold⟩ := hcaught
    have hc : I.new.symbol.name = c.name := I.name_eq
    rw [htied] at hbinds
    have hb : I.base.BuiltOn I.new.symbol.id d.scope :=
      I.builtOn (e := .declare d) hwalk (Program.mem_of_binds s.declared_mem hwalk hbinds)
    have hdepth : d.scope.depth ≠ I.base.depth := by
      intro hdepth
      have hj := h.joins_eq_false hd
      simp [Watch.joins, hdepth, ← hname, hc, watch, hbinds, I.vector_depth] at hj
    have hnew : t.lookup d.symbol.name = some I.new.symbol := by
      rw [← hname]
      exact hg.caught (htied ▸ hbinds) (hname ▸ hold)
    rw [ht.lookupInCurrentFrame_eq, hw.lookupInCurrentFrame_eq, hnew, hg.depth]
    cases hl : d.scope.lookup d.symbol.name with
    | none => simp [Option.filter, I.new_depth, Ne.symm hdepth]
    | some u =>
      have hlt := I.depth_lt h hb (by rw [← hc, hname]; exact hl) (hold u hl)
      have hle := hb.depth_le hw I.base_wellFormed
      have hne : u.depth ≠ d.scope.depth := by omega
      simp [Option.filter, I.new_depth, Ne.symm hdepth, hne]
  · exact hg.frame_eq hw ht (hkept hcaught)

end Inserted

end Sighting

end ShaderMorph
