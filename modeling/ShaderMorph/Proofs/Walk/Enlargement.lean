-- What an inserted declaration does to the walk, all in one place: how the
-- two walks are cut into the part before the new declaration, the group that
-- it goes before, up to the variable it is for, and everything behind that
-- variable.
import ShaderMorph.Proofs.Walk.Enlarged

namespace ShaderMorph

/-- The events of two walks, one of a program and one of the program with one
more declaration, `new`, before the group of the variable `vector`. -/
structure Enlargement (ρ : Relocation) (es es' : List Event) where
  pre : List Event
  pre' : List Event
  lead : List Event
  lead' : List Event
  after : List Event
  after' : List Event
  new : Declared
  vector : Declared
  vector' : Declared
  walk : es = pre ++ lead ++ .declare vector :: after
  walk' : es' = pre' ++ .declare new :: (lead' ++ .declare vector' :: after')
  pre_moved : List.Forall₂ (Event.Moved ρ new.symbol fun _ => False) pre pre'
  lead_moved : List.Forall₂ (Event.Moved ρ new.symbol fun _ => True) lead lead'
  vector_moved : Event.Moved ρ new.symbol (fun _ => True) (.declare vector) (.declare vector')
  after_moved :
    List.Forall₂ (Event.Moved ρ new.symbol fun t => t.binds new.symbol.id = true) after after'
  /-- The ids are given out in order. -/
  id_eq : new.symbol.id = (Event.declared pre).length
  /-- The group, up to the vector, is declared in one frame. -/
  stacked : ∀ e ∈ lead ++ [.declare vector], new.scope.Stacked new.symbol.id e.scope
  bound : ∀ d, .declare d ∈ lead → d.symbol ∈ vector.scope.symbols ∧
    d.scope.depth = new.scope.depth ∧ new.symbol.id ≤ d.symbol.id
  /-- Everything visited in the group is part of an initializer of it. -/
  reads : ∀ v, .visit v ∈ lead → ∃ d, (.declare d ∈ lead ∨ d = vector) ∧
    v.around.initializerOf = some d.symbol.id ∧ d.location.precedesInGroup vector.location = true
  /-- Behind the vector, the new variable is in scope where the vector is. -/
  tied : ∀ e ∈ after, e.scope.binds new.symbol.id = e.scope.binds vector.symbol.id
  /-- Nothing in front of the group is in it, and neither is the new variable. -/
  apart : ∀ d, .declare d ∈ pre' ++ [.declare new] →
    d.location.precedesInGroup vector'.location = false

/-! ## Commands that only declare -/

/-- An initializer is visited in the surroundings that its variable gives it. -/
theorem Declarator.around_of_mem_visits {heads : List Prototype} {m : Declarator}
    {s : WalkState} {v : Visit} (hv : v ∈ m.visits heads s) :
    v.around.read = (m.inner s.id).read := by
  unfold Declarator.visits at hv
  cases hi : m.initializer with
  | none => simp [Expr.visitsOption, hi] at hv
  | some e =>
    simp only [Expr.visitsOption, hi] at hv
    exact (e.visits_beside heads s.scope (m.inner s.id) none s.ordinal v hv).2

/-- An initializer is visited as that of the variable it belongs to. -/
theorem Declarator.initializerOf_of_mem_visits {heads : List Prototype} {m : Declarator}
    {s : WalkState} {v : Visit} (hv : v ∈ m.visits heads s) :
    v.around.initializerOf = some s.id :=
  congrArg (·.initializerOf) (around_of_mem_visits hv)

namespace Command

theorem mem_visits_of_mem_events {heads : List Prototype} {m : Declarator} {s : WalkState}
    {v : Visit} (hv : .visit v ∈ (Command.declare m).events heads s) : v ∈ m.visits heads s := by
  simpa [events] using hv

/-- What a run of declarators leaves bound. -/
theorem scope_final_declare (heads : List Prototype) (ms : List Declarator) (s : WalkState) :
    (final (ms.map .declare) s).scope.entries =
        ((Event.declared (run heads (ms.map .declare) s)).map fun d => .binding d.symbol).reverse ++
          s.scope.entries ∧
      (final (ms.map .declare) s).scope.depth = s.scope.depth ∧
        (final (ms.map .declare) s).kept = s.kept := by
  induction ms generalizing s with
  | nil => exact ⟨rfl, rfl, rfl⟩
  | cons m ms ih =>
    obtain ⟨he, hd, hk⟩ := ih ((Command.declare m).next s)
    rw [List.map_cons, final_cons]
    refine ⟨?_, hd, hk⟩
    rw [he]
    simp only [run, events, Event.declared_append, Event.declared_map_visit, List.nil_append,
      Event.declared_cons_declare, Event.declared_nil, List.map_append, List.map_cons,
      List.map_nil, List.reverse_append, List.reverse_cons, List.reverse_nil, List.append_assoc]
    rfl

theorem stacked_final_declare (ms : List Declarator) (s : WalkState) :
    s.scope.Stacked s.id (final (ms.map .declare) s).scope := by
  obtain ⟨he, hd, -⟩ := scope_final_declare [] ms s
  refine ⟨((Event.declared (run [] (ms.map .declare) s)).map (·.symbol)).reverse, ?_, hd, ?_⟩
  · rw [he, List.map_reverse, List.map_map]
    rfl
  · intro u hu
    obtain ⟨d, hd, rfl⟩ := List.mem_map.1 (List.mem_reverse.1 hu)
    exact declared_id_le [] _ s d hd

/-- The events of declarators lie in scopes that are stacked like that. -/
theorem stacked_run_declare {heads : List Prototype} {ms : List Declarator} {s : WalkState}
    {e : Event} (he : e ∈ run heads (ms.map .declare) s) : s.scope.Stacked s.id e.scope := by
  obtain ⟨before, c, after, hcs, hc⟩ := mem_run he
  obtain ⟨ms', _, -, rfl, -⟩ := List.map_eq_append_iff.1 hcs
  rw [events_scope hc]
  exact stacked_final_declare ms' s

/-- Everything visited by declarators is part of an initializer of theirs. -/
theorem reads_run_declare (heads : List Prototype) (ms : List Declarator) (s : WalkState)
    {v : Visit} (hv : .visit v ∈ run heads (ms.map .declare) s) :
    ∃ d, .declare d ∈ run heads (ms.map .declare) s ∧ v.around.initializerOf = some d.symbol.id ∧
      ∃ m ∈ ms, d.location = m.location := by
  induction ms generalizing s with
  | nil => cases hv
  | cons m ms ih =>
    rw [List.map_cons, run] at hv ⊢
    rcases List.mem_append.1 hv with hv | hv
    · refine ⟨m.declared s, List.mem_append_left _ (by simp [events]), ?_, m, by simp, rfl⟩
      exact Declarator.initializerOf_of_mem_visits (mem_visits_of_mem_events hv)
    · obtain ⟨d, hd, hi, m', hm, hl⟩ := ih _ hv
      exact ⟨d, List.mem_append_right _ hd, hi, m', List.mem_cons_of_mem _ hm, hl⟩

/-- What declarators declare is bound behind all of them. -/
theorem bound_run_declare {heads : List Prototype} {ms : List Declarator} {s : WalkState}
    {d : Declared} (hd : .declare d ∈ run heads (ms.map .declare) s) :
    d.symbol ∈ (final (ms.map .declare) s).scope.symbols ∧ d.scope.depth = s.scope.depth ∧
      s.id ≤ d.symbol.id := by
  have hmem := Event.mem_declared.2 hd
  have hsymbols : (final (ms.map .declare) s).scope.symbols =
      ((Event.declared (run heads (ms.map .declare) s)).map (·.symbol)).reverse ++
        s.scope.symbols := by
    rw [ScopeTree.symbols, (scope_final_declare heads ms s).1, ScopeEntry.symbols_append]
    congr 1
    simp [ScopeEntry.symbols, List.filterMap_reverse, List.filterMap_map, Function.comp_def,
      ScopeEntry.symbol?]
  obtain ⟨_, -, hdepth, -⟩ := stacked_run_declare hd
  refine ⟨?_, hdepth, declared_id_le heads _ s d hmem⟩
  rw [hsymbols]
  exact List.mem_append_left _ (List.mem_reverse.2 (List.mem_map_of_mem hmem))

/-- The last of several declarators. -/
theorem run_declare_concat (heads : List Prototype) (ms : List Declarator) (m : Declarator)
    (s : WalkState) :
    run heads ((ms ++ [m]).map .declare) s =
      run heads (ms.map .declare) s ++ (m.visits heads (final (ms.map .declare) s)).map .visit ++
        [.declare (m.declared (final (ms.map .declare) s))] := by
  rw [List.map_append, run_append, List.append_assoc]
  simp [run, events]

end Command

/-- The members of a group in front of one of them. -/
theorem VariableGroup.split_scriptMembers {g : VariableGroup} {around : Surroundings}
    {kind : SymbolKind} {locate : Nat → DeclLocation}
    (hl : ∀ i j, i ≤ j → (locate i).precedesInGroup (locate j) = true) {member : Nat}
    {vs : List Variable} {v : Declarator}
    (h : .declare v ∈ g.scriptMembers around kind locate member vs) :
    ∃ (leads : List Declarator) (rest : List Command),
      g.scriptMembers around kind locate member vs =
          leads.map .declare ++ .declare v :: rest ∧
        ∀ m ∈ v :: leads, m.location.precedesInGroup v.location = true := by
  induction vs generalizing member with
  | nil => cases h
  | cons x vs ih =>
    rcases List.mem_cons.1 h with h | h
    · cases h
      refine ⟨[], _, rfl, ?_⟩
      intro m hm
      rw [List.mem_singleton.1 hm]
      exact hl member member (Nat.le_refl _)
    · obtain ⟨leads, rest, hs, hm⟩ := ih h
      refine ⟨g.declarator around kind locate member x :: leads, rest,
        by simp [scriptMembers, hs], ?_⟩
      obtain ⟨j, y, -, hc⟩ := VariableGroup.mem_scriptMembers h
      cases hc
      intro m hmem
      rcases List.mem_cons.1 hmem with rfl | hmem
      · exact hm _ List.mem_cons_self
      · rcases List.mem_cons.1 hmem with rfl | hmem
        · exact hl member (member + 1 + j) (by omega)
        · exact hm _ (List.mem_cons_of_mem _ hmem)

/-- What is in a group in front of one of its members is one of them, too. -/
theorem DeclLocation.eq_of_precedesInGroup {locate : Nat → DeclLocation}
    (hshape : (∃ index, locate = .global index) ∨ ∃ path, locate = .block path)
    {l : DeclLocation} {j : Nat} (h : l.precedesInGroup (locate j) = true) :
    ∃ i ≤ j, l = locate i := by
  rcases hshape with ⟨index, rfl⟩ | ⟨path, rfl⟩ <;> cases l <;>
    simp only [precedesInGroup, Bool.and_eq_true, beq_iff_eq, decide_eq_true_eq,
      Bool.false_eq_true] at h
  · exact ⟨_, h.2, by rw [h.1]⟩
  · exact ⟨_, h.2, by rw [h.1]⟩

/-- What is declared in front of a group is not in it. -/
theorem VariableGroup.apart_of_spliced {p : Program} {ρ : Relocation} {g : VariableGroup}
    {around : Surroundings} {kind : SymbolKind} {locate : Nat → DeclLocation}
    (hshape : (∃ index, locate = .global index) ∨ ∃ path, locate = .block path)
    {v : Declarator} (hv : .declare v ∈ g.script around kind locate)
    {before new rest : List Command}
    (hp : p.script = before ++ (new ++ (g.script around kind locate ++ rest).map (.relocate ρ))) :
    ∀ l ∈ Command.locations (before ++ new), l.precedesInGroup (ρ.location v.location) = false := by
  intro l hl
  refine Bool.eq_false_iff.2 fun hgroup => ?_
  obtain ⟨j, x, hx, hc⟩ := VariableGroup.mem_script hv
  have hlocation : v.location = locate j := by
    cases hc
    rfl
  have hshape' : (∃ index, (fun m => ρ.location (locate m)) = .global index) ∨
      ∃ path, (fun m => ρ.location (locate m)) = .block path := by
    rcases hshape with ⟨index, rfl⟩ | ⟨path, rfl⟩
    · exact Or.inl ⟨_, rfl⟩
    · exact Or.inr ⟨_, rfl⟩
  rw [hlocation] at hgroup
  obtain ⟨i, hi, rfl⟩ := DeclLocation.eq_of_precedesInGroup hshape' hgroup
  have hlt : j < g.members.length := (List.getElem?_eq_some_iff.1 hx).1
  have hmember : locate i ∈ Command.locations (g.script around kind locate ++ rest) := by
    rw [Command.locations_append, script, VariableGroup.locations_scriptMembers]
    exact List.mem_append_left _
      (List.mem_map_of_mem (List.mem_range'_1.2 ⟨Nat.zero_le _, by omega⟩))
  have hnodup := p.locations_nodup
  rw [hp, ← List.append_assoc, Command.locations_append, Command.locations_relocate] at hnodup
  exact (List.nodup_append.1 hnodup).2.2 _ hl _ (List.mem_map_of_mem hmember) rfl

/-! ## The states in the group and behind it -/

namespace Opened

variable {ρ : Relocation} {new : Symbol} {base s s' : WalkState} {ds ds' : List Declared}

/-- The two walks through members of the group. -/
theorem run (heads : List Prototype) (hbase : base.Sound ds) (hid : base.id = new.id)
    (hdepth : new.depth = base.scope.depth) (ms : List Declarator) (h : Opened new base s s')
    (hs : s.Sound ds') :
    List.Forall₂ (Event.Moved ρ new fun _ => True) (Command.run heads (ms.map .declare) s)
        (Command.run heads ((ms.map Command.declare).map (.relocate ρ)) s') ∧
      Opened new base (Command.final (ms.map .declare) s)
        (Command.final ((ms.map Command.declare).map (.relocate ρ)) s') := by
  induction ms generalizing s s' ds' with
  | nil => exact ⟨.nil, h⟩
  | cons m ms ih =>
    obtain ⟨hrun, hfinal⟩ := ih (h.next (ρ := ρ) hbase hid hdepth m)
      (hs.next heads (.declare m))
    refine ⟨List.rel_append ?_ hrun, hfinal⟩
    have hmove : new.moveId s.id = s.id + 1 := if_neg (Nat.not_lt.2 h.id_le)
    exact Command.moved_events heads (h.grafted hbase hid hdepth hs) h.ordinal (.declare m)
      fun _ _ => h.id.trans hmove.symm

end Opened

namespace WalkState

/-- Where the one variable is bound, the other is. -/
def Tied (i j : Nat) (s : WalkState) : Prop := ∀ t ∈ s.scopes, t.binds i = t.binds j

namespace Tied

variable {i j : Nat} {s : WalkState}

theorem next (h : Tied i j s) (hi : i < s.id) (hj : j < s.id) (c : Command) :
    Tied i j (c.next s) := by
  intro t ht
  cases c with
  | expr around e => exact h t ht
  | enter o =>
    rcases List.mem_cons.1 ht with rfl | ht
    · cases o <;> exact h s.scope (Sound.scope_mem s)
    · exact h t ht
  | leave =>
    obtain ⟨scope, kept, ordinal, id⟩ := s
    cases kept with
    | nil => exact h t ht
    | cons u kept => exact h t (List.mem_cons_of_mem _ ht)
  | declare v =>
    rcases List.mem_cons.1 ht with rfl | ht
    · have hb : ∀ k, ((Command.declare v).next s).scope.binds k = (s.id == k || s.scope.binds k) :=
        fun _ => rfl
      rw [hb, hb, beq_eq_false_iff_ne.2 (Nat.ne_of_gt hi), beq_eq_false_iff_ne.2 (Nat.ne_of_gt hj),
        h s.scope (Sound.scope_mem s)]
    · exact h t (List.mem_cons_of_mem _ ht)

theorem run (heads : List Prototype) (h : Tied i j s) (hi : i < s.id) (hj : j < s.id)
    (cs : List Command) : ∀ e ∈ Command.run heads cs s, e.scope.binds i = e.scope.binds j := by
  induction cs generalizing s with
  | nil => simp [Command.run]
  | cons c cs ih =>
    intro e he
    rcases List.mem_append.1 he with he | he
    · rw [Command.events_scope he]
      exact h s.scope (Sound.scope_mem s)
    · have hle : s.id ≤ (c.next s).id := by
        rw [Command.id_next]
        exact Nat.le_add_right _ _
      exact ih (h.next hi hj c) (Nat.lt_of_lt_of_le hi hle) (Nat.lt_of_lt_of_le hj hle) e he

end Tied

/-- An id that was not given out yet is bound nowhere. -/
theorem Sound.not_binds {ds : List Declared} {s : WalkState} (h : s.Sound ds) {t : ScopeTree}
    (ht : t ∈ s.scopes) {k : Nat} (hk : s.id ≤ k) : t.binds k = false := by
  refine Bool.eq_false_iff.2 fun hb => ?_
  obtain ⟨u, hu, rfl⟩ := ScopeTree.binds_iff.1 hb
  exact Nat.not_lt.2 hk (h.symbol_id_lt ht hu)

end WalkState

/-- Behind a member of the group, the first member is bound where this one is:
in the frame of the group and in no other. -/
theorem Opened.tied {new : Symbol} {base s s' : WalkState} {ds : List Declared}
    (h : Opened new base s s') (hbase : base.Sound ds) (hid : base.id = new.id) (v : Declarator) :
    WalkState.Tied new.id s.id ((Command.declare v).next s) := by
  intro t ht
  rcases List.mem_cons.1 ht with rfl | ht
  · have hbinds : ∀ k, ((Command.declare v).next s).scope.binds k =
        (s.id == k || s.scope.binds k) := fun _ => rfl
    rw [hbinds, hbinds, beq_self_eq_true, Bool.true_or]
    rcases h.scope' with ⟨hfirst, -, -⟩ | ⟨-, hb, -⟩
    · rw [hfirst, beq_self_eq_true, Bool.true_or]
    · rw [hb, Bool.or_true]
  · have ht : t ∈ base.scopes := List.mem_cons_of_mem _ (h.kept ▸ ht)
    rw [hbase.not_binds ht (Nat.le_of_eq hid), hbase.not_binds ht (hid ▸ h.id_le)]

/-! ## The whole walk -/

namespace Program

/-- A declaration is met once. -/
theorem walk_split_unique {p : Program} {d : Declared} {a b a' b' : List Event}
    (h : p.walk = a ++ .declare d :: b) (h' : p.walk = a' ++ .declare d :: b') :
    a = a' ∧ b = b' := by
  have hn : (p.declared.map (·.symbol.id)).Nodup := by
    rw [declared_id]
    exact List.nodup_range
  rw [declared_eq, h, Event.declared_append, Event.declared_cons_declare, List.map_append,
    List.map_cons, List.nodup_append, List.nodup_cons] at hn
  have hmem : ∀ {es : List Event}, .declare d ∈ es →
      d.symbol.id ∈ (Event.declared es).map (·.symbol.id) :=
    fun hm => List.mem_map_of_mem (Event.mem_declared.2 hm)
  have ha : .declare d ∉ a := fun hm => hn.2.2 _ (hmem hm) _ List.mem_cons_self rfl
  have hb : .declare d ∉ b := fun hm => hn.2.1.1 (hmem hm)
  obtain ⟨hl, -, hr⟩ := (List.append_cons_inj_of_notMem ha hb).1 (h.symm.trans h')
  exact ⟨hl, hr⟩

/-- The walks of a program and of one with a declarator spliced in before a
group. -/
theorem enlarged_of_spliced {p p' : Program} {ρ : Relocation} {a rest : List Command}
    {leads : List Declarator} {nd v : Declarator} (hheads : p'.prototypes = p.prototypes)
    (hp : p.script = a ++ (leads.map Command.declare ++ .declare v :: rest))
    (hp' : p'.script = a.map (.relocate ρ) ++
      .declare nd :: (leads.map Command.declare ++ .declare v :: rest).map (.relocate ρ))
    (hnone : nd.initializer = none)
    (hlead : ∀ m ∈ v :: leads, m.location.precedesInGroup v.location = true)
    (hapart : ∀ l ∈ Command.locations (a.map (.relocate ρ) ++ [.declare nd]),
      l.precedesInGroup (ρ.location v.location) = false) :
    ∃ E : Enlargement ρ p.walk p'.walk, E.new = nd.declared (Command.final a .start) ∧
      E.vector = v.declared (Command.final (a ++ leads.map Command.declare) .start) ∧
        E.pre = Command.run p.prototypes a .start := by
  let heads := p.prototypes
  let base := Command.final a .start
  let new := nd.symbol base
  let s := Command.final (leads.map Command.declare) base
  let base' := (Command.declare nd).next base
  let s' := Command.final ((leads.map Command.declare).map (.relocate ρ)) base'
  have hbase : base.Sound _ := p.sound_final a
  obtain ⟨hrun, hs⟩ := Opened.run (ρ := ρ) heads hbase rfl rfl leads
    (Opened.start (show base.id = new.id from rfl) rfl hnone) hbase
  have hsound : s.Sound _ := hbase.final heads (leads.map Command.declare)
  have hnext := hs.next (ρ := ρ) hbase rfl rfl v
  have hsound' := hsound.next heads (.declare v)
  have hgraft := hnext.eq_graft hbase rfl (Nat.lt_succ_of_le hs.id_le)
  have hg := hs.grafted hbase rfl rfl hsound
  have hid := hs.id.trans (if_neg (Nat.not_lt.2 hs.id_le) : new.moveId s.id = s.id + 1).symm
  have hgroup := Command.run_declare_concat heads leads v base
  refine ⟨{
    pre := Command.run heads a .start
    pre' := Command.run heads (a.map (.relocate ρ)) .start
    lead := Command.run heads (leads.map .declare) base ++ (v.visits heads s).map .visit
    lead' := Command.run heads ((leads.map Command.declare).map (.relocate ρ)) base' ++
      ((v.relocate ρ).visits heads s').map .visit
    after := Command.run heads rest ((Command.declare v).next s)
    after' := Command.run heads (rest.map (.relocate ρ)) ((Command.declare (v.relocate ρ)).next s')
    new := nd.declared base
    vector := v.declared s
    vector' := (v.relocate ρ).declared s'
    walk := ?_
    walk' := ?_
    pre_moved := ?_
    lead_moved := ?_
    vector_moved := ?_
    after_moved := ?_
    id_eq := ?_
    stacked := ?_
    bound := ?_
    reads := ?_
    tied := ?_
    apart := ?_ }, rfl, ?_, rfl⟩
  · rw [Program.walk_eq_run, hp, Command.run_append, Command.run_append, Command.run]
    simp [Command.events, heads, base, s]
  · rw [Program.walk_eq_run, hheads, hp', Command.run_append, Command.run, List.map_append,
      List.map_cons, Command.run_append, Command.run, Command.final_relocate]
    simp [Command.events, heads, base, base', s', Declarator.visits, hnone, Expr.visitsOption,
      Command.relocate]
  · exact Command.moved_run_before heads WalkState.Sound.start a (Nat.le_refl _)
  · exact List.rel_append hrun (v.moved_visits heads hg hs.ordinal)
  · exact v.moved_declared hg hid
  · rw [hgraft]
    exact Command.moved_run_after heads hsound' (Nat.lt_succ_of_le hs.id_le) rest
  · have hlen := congrArg List.length hbase.ids
    rw [List.length_map, List.length_range] at hlen
    exact hlen.symm
  · intro e he
    exact Command.stacked_run_declare (hgroup ▸ he)
  · intro d hd
    exact Command.bound_run_declare (by simpa using hd)
  · intro w hw
    obtain ⟨d, hd, hi, m, hm, hl⟩ := Command.reads_run_declare heads (leads ++ [v]) base
      (hgroup ▸ List.mem_append_left _ hw)
    rw [hgroup, List.mem_append, List.mem_singleton, Event.declare.injEq] at hd
    refine ⟨d, hd, hi, ?_⟩
    rw [hl]
    exact hlead m (by simpa [or_comm] using hm)
  · exact (hs.tied hbase rfl v).run heads (Nat.lt_succ_of_le hs.id_le) (Nat.lt_succ_self s.id) rest
  · intro d hd
    have hmem := List.mem_map_of_mem (f := Declared.location) (Event.mem_declared.2 hd)
    rw [Event.declared_append, List.map_append, Command.run_locations] at hmem
    refine hapart _ ?_
    rw [Command.locations_append]
    exact hmem
  · rw [Command.final_append]

/-- A variable can be declared before any vector of a list, and the walk takes
note of it as told. -/
theorem exists_enlargement {p : Program} {before after : List Event} {d : Declared}
    (hw : p.walk = before ++ .declare d :: after) (hs : d.location.acceptsSibling = true)
    (name : String) (type : DataType) :
    ∃ g p', p.PutBefore (.bare name type) g d.location p' ∧
      (∃ x ∈ g.members, x.name = d.symbol.name) ∧
        ∃ E : Enlargement (.before d.location) p.walk p'.walk,
          E.pre ++ E.lead = before ∧ E.vector = d ∧ E.after = after ∧
            E.new.symbol.name = name ∧ E.new.symbol.type = type ∧
              E.new.symbol.depth = E.new.scope.depth ∧
                E.new.redeclared = (E.new.scope.lookupInCurrentFrame name).isSome ∧
                  ∃ a rest, p.script = a ++ rest ∧ E.pre = Command.run p.prototypes a .start := by
  have hmem : .declare d ∈ Command.run p.prototypes p.script .start := by
    rw [← walk_eq_run, hw]
    simp
  obtain ⟨cs, v, ds, hscript, rfl⟩ := Command.mem_run_declare hmem
  obtain ⟨g, around, kind, locate, p', hput, hv, hlocate, hshape, a, rest, hp, hp'⟩ :=
    exists_putBefore (p := p) (v := v) (by rw [hscript]; simp) hs (.bare name type)
  have hapart := VariableGroup.apart_of_spliced hshape hv hp'
  obtain ⟨j, x, hx, hc⟩ := VariableGroup.mem_script hv
  obtain ⟨leads, tail, hg, hlead⟩ := VariableGroup.split_scriptMembers hlocate hv
  have hg : g.script around kind locate = leads.map Command.declare ++ .declare v :: tail := hg
  rw [hg, List.append_assoc, List.cons_append] at hp hp'
  have hsplit : p.script = (a ++ leads.map Command.declare) ++ .declare v :: (tail ++ rest) := by
    rw [hp]
    simp
  obtain ⟨rfl, -⟩ := script_split_unique hscript hsplit
  obtain ⟨E, hnew, hvector, hpre⟩ := enlarged_of_spliced (prototypes_putBefore hput) hp hp' rfl
    hlead hapart
  obtain ⟨hbefore, hafter⟩ := walk_split_unique (hvector ▸ E.walk) hw
  refine ⟨g, p', hput, ⟨x, List.mem_of_getElem? hx, ?_⟩, E, hbefore, hvector, hafter, ?_⟩
  · cases hc
    rfl
  · rw [hnew]
    exact ⟨rfl, rfl, rfl, rfl, a, _, hp, hpre⟩

end Program

end ShaderMorph
