-- The scopes that a walk meets. Each is well-formed, and everything bound in
-- it was declared earlier on the walk, in the scope that it stands on.
import ShaderMorph.Proofs.Scope.Chain
import ShaderMorph.Proofs.Walk.Numbering

namespace ShaderMorph

/-- Each binding of a chain comes from one of these declarations, and what is
below it is the scope that was declared in. -/
def ScopeEntry.Grown (ds : List Declared) : List ScopeEntry → Prop
  | [] => True
  | .frame :: es => Grown ds es
  | .binding u :: es => (∃ d ∈ ds, d.symbol = u ∧ d.scope.entries = es) ∧ Grown ds es

namespace ScopeEntry.Grown

variable {ds : List Declared} {es : List ScopeEntry}

theorem mono {ds' : List Declared} (h : Grown ds es) (hds : ∀ d ∈ ds, d ∈ ds') :
    Grown ds' es := by
  induction es with
  | nil => trivial
  | cons x es ih =>
    cases x with
    | frame => exact ih h
    | binding u =>
      obtain ⟨⟨d, hd, he⟩, h⟩ := h
      exact ⟨⟨d, hds d hd, he⟩, ih h⟩

theorem split {u : Symbol} (h : Grown ds es) (hu : u ∈ symbols es) :
    ∃ d ∈ ds, d.symbol = u ∧ ∃ above, es = above ++ .binding u :: d.scope.entries := by
  induction es with
  | nil => cases hu
  | cons x es ih =>
    cases x with
    | frame =>
      obtain ⟨d, hd, he, above, rfl⟩ := ih h hu
      exact ⟨d, hd, he, .frame :: above, rfl⟩
    | binding t =>
      rcases List.mem_cons.1 hu with rfl | hu
      · obtain ⟨⟨d, hd, he, hs⟩, -⟩ := h
        exact ⟨d, hd, he, [], by rw [hs]; rfl⟩
      · obtain ⟨d, hd, he, above, rfl⟩ := ih h.2 hu
        exact ⟨d, hd, he, .binding t :: above, rfl⟩

/-- Where nothing is declared twice in a frame, the names of a frame differ. -/
theorem innermost_pairwise (h : Grown ds es)
    (hds : ∀ d ∈ ds, d.scope.lookupInCurrentFrame d.symbol.name = none) :
    (innermost es).Pairwise fun a b => a.name ≠ b.name := by
  induction es with
  | nil => exact .nil
  | cons x es ih =>
    cases x with
    | frame => exact .nil
    | binding u =>
      obtain ⟨⟨d, hd, rfl, rfl⟩, h⟩ := h
      refine .cons (fun b hb hname => ?_) (ih h)
      have hnone := hds d hd
      rw [ScopeTree.lookupInCurrentFrame, ScopeTree.lookupInFrame_eq_find?,
        List.find?_eq_none] at hnone
      exact hnone b hb (by simpa using hname.symm)

end ScopeEntry.Grown

namespace WalkState

/-- The scopes that a state holds. -/
def scopes (s : WalkState) : List ScopeTree := s.scope :: s.kept

/-- What holds of a state of the machine once the declarations `ds` have been
met. -/
structure Sound (ds : List Declared) (s : WalkState) : Prop where
  ids : ds.map (·.symbol.id) = List.range s.id
  wellFormed : ∀ t ∈ s.scopes, t.WellFormed
  grown : ∀ t ∈ s.scopes, ScopeEntry.Grown ds t.entries

namespace Sound

variable {ds : List Declared} {s : WalkState}

theorem start : Sound [] WalkState.start where
  ids := rfl
  wellFormed t ht := by
    simp only [scopes, WalkState.start, List.mem_singleton] at ht
    exact ht ▸ ScopeTree.wellFormed_empty
  grown t ht := by
    simp only [scopes, WalkState.start, List.mem_singleton] at ht
    exact ht ▸ trivial

/-- Whatever was met has an id below the next one. -/
theorem id_lt (h : Sound ds s) {d : Declared} (hd : d ∈ ds) : d.symbol.id < s.id := by
  have hm : d.symbol.id ∈ ds.map (·.symbol.id) := List.mem_map_of_mem hd
  rw [h.ids] at hm
  exact List.mem_range.1 hm

theorem symbol_id_lt (h : Sound ds s) {t : ScopeTree} (ht : t ∈ s.scopes) {u : Symbol}
    (hu : u ∈ t.symbols) : u.id < s.id := by
  obtain ⟨d, hd, rfl, -⟩ := (h.grown t ht).split hu
  exact h.id_lt hd

theorem scope_mem (s : WalkState) : s.scope ∈ s.scopes := List.mem_cons_self

/-- When scopes are only entered and left, and nothing is declared. -/
theorem of_scopes (h : Sound ds s) {u : WalkState} (hid : u.id = s.id)
    (hs : ∀ t ∈ u.scopes, t ∈ s.scopes ∨ t = s.scope.enter) : Sound ds u where
  ids := hid ▸ h.ids
  wellFormed t ht := by
    rcases hs t ht with ht | rfl
    · exact h.wellFormed t ht
    · exact (h.wellFormed _ (scope_mem s)).enter
  grown t ht := by
    rcases hs t ht with ht | rfl
    · exact h.grown t ht
    · exact h.grown s.scope (scope_mem s)

/-- One command keeps what holds. -/
theorem next (h : Sound ds s) (heads : List Prototype) (c : Command) :
    Sound (ds ++ Event.declared (c.events heads s)) (c.next s) := by
  cases c with
  | expr around e =>
    simpa [Command.events] using h.of_scopes (u := (Command.expr around e).next s) rfl
      fun t ht => Or.inl ht
  | enter opensFrame =>
    simp only [Command.events, Event.declared_nil, List.append_nil]
    refine h.of_scopes rfl fun t ht => ?_
    simp only [scopes, Command.next, List.mem_cons] at ht ⊢
    rcases ht with rfl | ht
    · cases opensFrame <;> simp
    · exact Or.inl ht
  | leave =>
    simp only [Command.events, Event.declared_nil, List.append_nil]
    obtain ⟨scope, kept, ordinal, id⟩ := s
    cases kept with
    | nil => exact h
    | cons t kept => exact h.of_scopes rfl fun u hu => Or.inl (List.mem_cons_of_mem _ hu)
  | declare v =>
    simp only [Command.events, Event.declared_append, Event.declared_map_visit, List.nil_append,
      Event.declared_cons_declare, Event.declared_nil]
    constructor
    · simp [h.ids, Declarator.declared, Declarator.symbol, Command.next, List.range_succ]
    · intro t ht
      simp only [scopes, Command.next, List.mem_cons] at ht
      rcases ht with rfl | ht
      · exact (h.wellFormed _ (scope_mem s)).shadow fun u hu =>
          h.symbol_id_lt (scope_mem s) hu
      · exact h.wellFormed t (List.mem_cons_of_mem _ ht)
    · intro t ht
      simp only [scopes, Command.next, List.mem_cons] at ht
      rcases ht with rfl | ht
      · exact ⟨⟨v.declared s, by simp, rfl, rfl⟩, (h.grown _ (scope_mem s)).mono (by simp_all)⟩
      · exact (h.grown t (List.mem_cons_of_mem _ ht)).mono (by simp_all)

/-- So does a run. -/
theorem final (h : Sound ds s) (heads : List Prototype) (cs : List Command) :
    Sound (ds ++ Event.declared (Command.run heads cs s)) (Command.final cs s) := by
  induction cs generalizing ds s with
  | nil => simpa [Command.run] using h
  | cons c cs ih =>
    rw [Command.run, Event.declared_append, ← List.append_assoc]
    exact ih (h.next heads c)

end Sound

end WalkState

/-! ## Where an event comes from -/

/-- The scope that comes with an event. -/
def Event.scope : Event → ScopeTree
  | .declare d => d.scope
  | .visit v => v.scope

namespace Command

theorem events_scope {heads : List Prototype} {s : WalkState} {c : Command} {e : Event}
    (h : e ∈ c.events heads s) : e.scope = s.scope := by
  have hvisits : ∀ (around : Surroundings) (x : Expr),
      e ∈ (x.visits heads s.scope around none s.ordinal).map Event.visit → e.scope = s.scope := by
    intro around x hx
    obtain ⟨v, hv, rfl⟩ := List.mem_map.1 hx
    exact (x.visits_beside heads s.scope around none s.ordinal v hv).1
  cases c with
  | expr around x => exact hvisits around x h
  | declare v =>
    simp only [events, List.mem_append, List.mem_singleton] at h
    rcases h with h | rfl
    · cases hi : v.initializer with
      | none => simp [Declarator.visits, Expr.visitsOption, hi] at h
      | some x =>
        exact hvisits (v.inner s.id) x (by simpa [Declarator.visits, Expr.visitsOption, hi] using h)
    · rfl
  | enter o => cases h
  | leave => cases h

/-- No expression of a command is part of one outside it. -/
theorem events_stems {heads : List Prototype} {s : WalkState} {c : Command} {v : Visit}
    (h : .visit v ∈ c.events heads s) {k : Nat} (hk : v.parent = some k) :
    ∃ w, .visit w ∈ c.events heads s ∧ w.ordinal = k ∧ v.expr ∈ w.expr.children := by
  have hvisits : ∀ (around : Surroundings) (x : Expr),
      v ∈ x.visits heads s.scope around none s.ordinal →
        ∃ w ∈ x.visits heads s.scope around none s.ordinal,
          w.ordinal = k ∧ v.expr ∈ w.expr.children := by
    intro around x hx
    rcases x.visits_stems heads s.scope around none s.ordinal v hx with ⟨hp, -⟩ | ⟨w, hw, hp, hc⟩
    · rw [hk] at hp
      cases hp
    · rw [hk] at hp
      exact ⟨w, hw, (Option.some.inj hp).symm, hc⟩
  cases c with
  | expr around x =>
    simp only [events, List.mem_map, Event.visit.injEq, exists_eq_right] at h ⊢
    exact hvisits around x h
  | declare d =>
    cases hi : d.initializer with
    | none => simp [events, Declarator.visits, Expr.visitsOption, hi] at h
    | some x =>
      simp only [events, Declarator.visits, Expr.visitsOption, hi, List.mem_append, List.mem_map,
        Event.visit.injEq, exists_eq_right, List.mem_singleton, reduceCtorEq, or_false] at h ⊢
      exact hvisits (d.inner s.id) x h
  | enter o => cases h
  | leave => cases h

/-- An event of a run is met at one of its commands. -/
theorem mem_run {heads : List Prototype} {cs : List Command} {s : WalkState} {e : Event}
    (h : e ∈ run heads cs s) :
    ∃ before c after, cs = before ++ c :: after ∧ e ∈ c.events heads (final before s) := by
  induction cs generalizing s with
  | nil => cases h
  | cons c cs ih =>
    rcases List.mem_append.1 h with h | h
    · exact ⟨[], c, cs, rfl, h⟩
    · obtain ⟨before, c', after, rfl, he⟩ := ih h
      exact ⟨c :: before, c', after, rfl, he⟩

/-- A declaration of a run belongs to one of its declarators. -/
theorem mem_run_declare {heads : List Prototype} {cs : List Command} {s : WalkState}
    {d : Declared} (h : .declare d ∈ run heads cs s) :
    ∃ before v after, cs = before ++ .declare v :: after ∧ d = v.declared (final before s) := by
  obtain ⟨before, c, after, rfl, he⟩ := mem_run h
  cases c with
  | declare v =>
    refine ⟨before, v, after, rfl, ?_⟩
    simpa [events] using he
  | expr around e => simp [events] at he
  | enter o => cases he
  | leave => cases he

theorem declared_id_le (heads : List Prototype) (cs : List Command) (s : WalkState) :
    ∀ d ∈ Event.declared (run heads cs s), s.id ≤ d.symbol.id := by
  intro d hd
  have hm : d.symbol.id ∈ (Event.declared (run heads cs s)).map (·.symbol.id) :=
    List.mem_map_of_mem hd
  rw [run_ids] at hm
  exact (List.mem_range'_1.1 hm).1

/-- What is bound where an event is met has a lower id than what is declared
later. -/
theorem run_pairwise (heads : List Prototype) {ds : List Declared} {s : WalkState}
    (hs : s.Sound ds) (cs : List Command) :
    (run heads cs s).Pairwise fun e e' =>
      ∀ d, e' = .declare d → ∀ u ∈ e.scope.symbols, u.id < d.symbol.id := by
  induction cs generalizing ds s with
  | nil => exact .nil
  | cons c cs ih =>
    have hlt : ∀ e ∈ c.events heads s, ∀ d, .declare d ∈ run heads (c :: cs) s →
        ∀ u ∈ e.scope.symbols, u.id < d.symbol.id := by
      intro e he d hd u hu
      rw [events_scope he] at hu
      exact Nat.lt_of_lt_of_le (hs.symbol_id_lt (WalkState.Sound.scope_mem s) hu)
        (declared_id_le heads (c :: cs) s d (Event.mem_declared.2 hd))
    refine List.pairwise_append.2 ⟨?_, ih (hs.next heads c), ?_⟩
    · refine List.pairwise_of_forall_mem_list fun e he e' he' d hd u hu => ?_
      exact hlt e he d (List.mem_append_left _ (hd ▸ he')) u hu
    · intro e he e' he' d hd u hu
      exact hlt e he d (List.mem_append_right _ (hd ▸ he')) u hu

end Command

namespace Program

/-- The state after some commands of a program. -/
theorem sound_final (p : Program) (cs : List Command) :
    (Command.final cs .start).Sound (Event.declared (Command.run p.prototypes cs .start)) := by
  simpa using WalkState.Sound.start.final p.prototypes cs

/-- Every scope on the walk is well-formed. -/
theorem wellFormed_of_mem_walk {p : Program} {e : Event} (h : e ∈ p.walk) :
    e.scope.WellFormed := by
  rw [walk_eq_run] at h
  obtain ⟨before, c, after, -, he⟩ := Command.mem_run h
  rw [Command.events_scope he]
  exact (p.sound_final before).wellFormed _ (WalkState.Sound.scope_mem _)

/-- Every scope on the walk was put together from what is declared on it. -/
theorem grown_of_mem_walk {p : Program} {e : Event} (h : e ∈ p.walk) :
    ScopeEntry.Grown p.declared e.scope.entries := by
  rw [walk_eq_run] at h
  obtain ⟨before, c, after, hcs, he⟩ := Command.mem_run h
  rw [Command.events_scope he]
  refine ((p.sound_final before).grown _ (WalkState.Sound.scope_mem _)).mono fun d hd => ?_
  rw [declared_eq, walk_eq_run, hcs, Command.run_append, Event.declared_append]
  exact List.mem_append_left _ hd

/-- Everything bound on the walk was declared on it, in the scope that it
stands on. -/
theorem declared_of_bound {p : Program} {e : Event} (h : e ∈ p.walk) {u : Symbol}
    (hu : u ∈ e.scope.symbols) :
    ∃ d ∈ p.declared, d.symbol = u ∧
      ∃ above, e.scope.entries = above ++ .binding u :: d.scope.entries :=
  (grown_of_mem_walk h).split hu

/-- The expression that a visited one is a direct part of is visited, too, and
in the same scope. -/
theorem parent_visited {p : Program} {v : Visit} (h : .visit v ∈ p.walk) {k : Nat}
    (hk : v.parent = some k) :
    ∃ w, .visit w ∈ p.walk ∧ w.ordinal = k ∧ v.expr ∈ w.expr.children ∧ w.scope = v.scope := by
  rw [walk_eq_run] at h ⊢
  obtain ⟨before, c, after, hcs, he⟩ := Command.mem_run h
  obtain ⟨w, hw, hp, hc⟩ := Command.events_stems he hk
  refine ⟨w, ?_, hp, hc, ?_⟩
  · rw [hcs, Command.run_append, Command.run]
    exact List.mem_append_right _ (List.mem_append_left _ hw)
  · exact (Command.events_scope hw).trans (Command.events_scope he).symm

/-- The first declarations of a walk have the first ids. -/
theorem declared_id_of_split {p : Program} {a b : List Event} (h : p.walk = a ++ b) :
    (Event.declared a).map (·.symbol.id) = List.range (Event.declared a).length := by
  have hids := p.declared_id
  rw [declared_eq, h, Event.declared_append, List.map_append, List.length_append] at hids
  have htake := congrArg (List.take (Event.declared a).length) hids
  rwa [List.take_left' (List.length_map _), List.take_range, Nat.min_eq_left (by omega)] at htake

/-- The id of a declaration is the number of those before it. -/
theorem declared_id_eq {p : Program} {a b : List Event} {d : Declared}
    (h : p.walk = a ++ .declare d :: b) : d.symbol.id = (Event.declared a).length := by
  have hids := declared_id_of_split (p := p) (a := a ++ [.declare d]) (b := b) (by simp [h])
  simp only [Event.declared_append, Event.declared_cons_declare, Event.declared_nil,
    List.length_append, List.map_append, List.map_cons, List.map_nil, List.length_cons,
    List.length_nil, List.range_succ] at hids
  exact List.singleton_inj.1 (List.append_inj' hids rfl).2

/-- The declarations have their ids in order. -/
theorem declared_pairwise (p : Program) :
    p.declared.Pairwise fun d d' => d.symbol.id < d'.symbol.id := by
  have h : (p.declared.map (·.symbol.id)).Pairwise (· < ·) := by
    rw [declared_id]
    exact List.pairwise_lt_range
  exact List.pairwise_map.1 h

/-- A declaration is told by its id. -/
theorem declared_ext {p : Program} {d d' : Declared} (h : d ∈ p.declared) (h' : d' ∈ p.declared)
    (hid : d.symbol.id = d'.symbol.id) : d = d' := by
  have hn : (p.declared.map (·.symbol.id)).Nodup := by
    rw [declared_id]; exact List.nodup_range
  exact List.inj_on_of_nodup_map hn h h' hid

/-- Where the id of a declaration is bound, its symbol is. -/
theorem mem_of_binds {p : Program} {d : Declared} (hd : d ∈ p.declared) {e : Event}
    (he : e ∈ p.walk) (hb : e.scope.binds d.symbol.id = true) : d.symbol ∈ e.scope.symbols := by
  obtain ⟨u, hu, hid⟩ := ScopeTree.binds_iff.1 hb
  obtain ⟨d', hd', hsym, -⟩ := declared_of_bound he hu
  obtain rfl := declared_ext hd' hd (by rw [hsym, hid])
  exact hsym ▸ hu

/-- A declaration has the depth of its scope and an id that nothing in there
has reached, and it is marked when the innermost frame has its name. -/
theorem declared_scope {p : Program} {d : Declared} (h : d ∈ p.declared) :
    d.symbol.depth = d.scope.depth ∧ (∀ u ∈ d.scope.symbols, u.id < d.symbol.id) ∧
      d.redeclared = (d.scope.lookupInCurrentFrame d.symbol.name).isSome := by
  rw [mem_declared, walk_eq_run] at h
  obtain ⟨before, v, after, -, rfl⟩ := Command.mem_run_declare h
  exact ⟨rfl, fun u hu => (p.sound_final before).symbol_id_lt (WalkState.Sound.scope_mem _) hu, rfl⟩

/-- Nothing is bound before it is declared. -/
theorem id_lt_of_before {p : Program} {before after : List Event} {d : Declared}
    (h : p.walk = before ++ .declare d :: after) {e : Event} (he : e ∈ before) {u : Symbol}
    (hu : u ∈ e.scope.symbols) : u.id < d.symbol.id := by
  have hs := Command.run_pairwise p.prototypes WalkState.Sound.start p.script
  rw [← walk_eq_run, h, List.pairwise_append] at hs
  exact hs.2.2 e he _ List.mem_cons_self d rfl u hu

end Program

end ShaderMorph
