-- The accesses of a constituent on the walk of a program. They are all the
-- swizzles of the vector that pick components of the constituent only, each
-- of them can be replaced, and they are met in the order of their numbers.
import ShaderMorph.Proofs.Extraction.MergedNames
import ShaderMorph.Proofs.Extraction.Plans
import ShaderMorph.Proofs.Walk.Matching

namespace ShaderMorph

/-! ## Swizzles -/

theorem LetterSet.length_letters (l : LetterSet) : l.letters.length = 4 := by cases l <;> rfl

namespace Swizzle

theorem componentOf?_lt {letters : LetterSet} {width k : Nat} {c : Char}
    (h : componentOf? letters width c = some k) : k < letters.letters.length := by
  unfold componentOf? at h
  obtain ⟨j, hj, h⟩ := Option.bind_eq_some_iff.1 h
  split at h
  · cases h
    exact (List.findIdx?_eq_some_iff_getElem.1 hj).1
  · cases h

/-- What it takes for a name to be a swizzle. -/
theorem parse?_eq_some {name : String} {width : Nat} {s : Swizzle} :
    parse? name width = some s ↔
      name.utf8ByteSize ≤ 4 ∧ (∃ c rest, name.toList = c :: rest ∧
        LetterSet.containing? c = some s.letters) ∧
          name.toList.mapM (componentOf? s.letters width) = some s.components := by
  unfold parse?
  cases htext : name.toList with
  | nil => simp
  | cons c rest =>
    by_cases hsize : 4 < name.utf8ByteSize
    · simp [hsize, Nat.not_le.2 hsize]
    · simp only [hsize, if_false, Nat.le_of_not_lt hsize, true_and, List.cons.injEq]
      constructor
      · intro h
        obtain ⟨letters, hl, h⟩ := Option.bind_eq_some_iff.1 h
        obtain ⟨components, hc, h⟩ := Option.bind_eq_some_iff.1 h
        cases h
        exact ⟨⟨c, rest, ⟨rfl, rfl⟩, hl⟩, hc⟩
      · rintro ⟨⟨_, _, ⟨rfl, rfl⟩, hl⟩, hc⟩
        exact Option.bind_eq_some_iff.2 ⟨_, hl, Option.bind_eq_some_iff.2 ⟨_, hc, rfl⟩⟩

/-- A swizzle names no component beyond the widest vector. -/
theorem parse?_lt {name : String} {width : Nat} {s : Swizzle} (h : parse? name width = some s) :
    ∀ k ∈ s.components, k < 4 := by
  obtain ⟨-, -, hc⟩ := parse?_eq_some.1 h
  intro k hk
  obtain ⟨a, -, ha⟩ := forall₂_right (mapM_eq_some.1 hc) hk
  rw [← s.letters.length_letters]
  exact componentOf?_lt ha

/-- A swizzle picks one to four components. -/
theorem parse?_length {name : String} {width : Nat} {s : Swizzle}
    (h : parse? name width = some s) : 0 < s.length ∧ s.length ≤ 4 := by
  obtain ⟨hsize, ⟨c, rest, htext, -⟩, hc⟩ := parse?_eq_some.1 h
  have hlength : s.length = name.toList.length := (mapM_eq_some.1 hc).length_eq.symm
  have hbytes : name.toList.length ≤ name.utf8ByteSize :=
    Text.byteLength_toList name ▸ Text.length_le_byteLength _
  constructor
  · simp [hlength, htext]
  · exact hlength ▸ Nat.le_trans hbytes hsize

theorem le_of_isWithin {s : Swizzle} {offset width : Nat} (h : s.isWithin offset width = true) :
    ∀ k ∈ s.components, offset ≤ k ∧ k < offset + width := by
  intro k hk
  have := List.all_eq_true.1 h k hk
  simpa only [Bool.and_eq_true, decide_eq_true_eq] using this

/-- A swizzle that picks nothing before `offset` can be counted from there. -/
theorem shifted?_isSome {s : Swizzle} {offset width : Nat} (hs : ∀ k ∈ s.components, k < 4)
    (hin : s.isWithin offset width = true) : (s.shifted? offset).isSome := by
  have hcs : (s.components.mapM fun k =>
      if offset ≤ k then s.letters.letters[k - offset]? else none) =
        some (s.components.map fun k => s.letters.letters.getD (k - offset) ' ') := by
    rw [mapM_eq_some, List.forall₂_map_right_iff, List.forall₂_same]
    intro k hk
    have hle : offset ≤ k := (le_of_isWithin hin k hk).1
    have hlt : k - offset < s.letters.letters.length := by
      have := hs k hk
      rw [s.letters.length_letters]
      omega
    rw [if_pos hle, List.getD_eq_getElem?_getD, List.getElem?_eq_getElem hlt]
    rfl
  simp [shifted?, hcs]

end Swizzle

/-- Every access that picks components of a constituent only can be
replaced. -/
theorem Constituent.replacement?_isSome {name : String} {width : Nat} {s : Swizzle}
    (hs : Swizzle.parse? name width = some s) (scalarSwizzles : Bool) (c : Constituent)
    (type : DataType) (hin : s.isWithin c.offset c.width = true) :
    (c.replacement? scalarSwizzles type s).isSome := by
  unfold replacement?
  split
  · rfl
  · split
    · rfl
    · rw [Option.isSome_map]
      exact Swizzle.shifted?_isSome (Swizzle.parse?_lt hs) hin

/-- An expression in which one name stands, once, with at most a call or a
swizzle around it. -/
inductive Expr.Names (name : String) : Expr → Prop
  | ident : Names name (.ident name)
  | call (callee : String) : Names name (.call callee [.ident name])
  | member (field : String) : Names name (.member (.ident name) field)

/-- Whatever stands for an access names the constituent. -/
theorem Constituent.replacement?_names {scalarSwizzles : Bool} {c : Constituent} {type : DataType}
    {s : Swizzle} {e : Expr} (h : c.replacement? scalarSwizzles type s = some e) :
    e.Names c.name := by
  unfold replacement? at h
  split at h
  · cases h
    exact .ident
  · split at h
    · cases h
      exact .call _
    · obtain ⟨field, -, rfl⟩ := Option.map_eq_some_iff.1 h
      exact .member field

/-! ## Names on the walk -/

namespace Program

variable {p : Program}

/-- What a name stands for was declared, and only one declaration has that
id. -/
theorem eq_of_lookup {d : Declared} (hd : d ∈ p.declared) {e : Event} (he : e ∈ p.walk)
    {name : String} {u : Symbol} (hu : e.scope.lookup name = some u) (hid : u.id = d.symbol.id) :
    u = d.symbol ∧ name = d.symbol.name := by
  obtain ⟨hmem, hname⟩ := ScopeTree.lookup_mem hu
  obtain ⟨d', hd', hsym, -⟩ := declared_of_bound he hmem
  have hdd : d' = d := declared_ext hd' hd (by rw [hsym, hid])
  subst hdd
  exact ⟨hsym.symm, by rw [hsym, hname]⟩

/-- An expression means a declared variable when it is the name of it, where
that stands for it. -/
theorem means_iff {d : Declared} (hd : d ∈ p.declared) {v : Visit} (hv : .visit v ∈ p.walk)
    (base : Expr) :
    base.means v.scope d.symbol.id = true ↔
      base = .ident d.symbol.name ∧ v.scope.lookup d.symbol.name = some d.symbol := by
  unfold Expr.means Expr.named?
  rw [Option.any_eq_true]
  constructor
  · rintro ⟨u, hu, hid⟩
    obtain ⟨name, hb, hl⟩ := Option.bind_eq_some_iff.1 hu
    obtain ⟨rfl, rfl⟩ := eq_of_lookup hd hv hl (by simpa using hid)
    cases base <;> simp_all [Expr.name?]
  · rintro ⟨rfl, hl⟩
    exact ⟨d.symbol, by simp [Expr.name?, hl], by simp⟩

end Program

/-! ## What a name means at an access -/

namespace Resolution

theorem ofLookup_outer {depth : Nat} {m : Option Symbol} :
    (ofLookup depth m = .undeclared ∨ ofLookup depth m = .outer) ↔
      ∀ u, m = some u → u.depth < depth := by
  cases m with
  | none => simp [ofLookup]
  | some u =>
    by_cases hlt : u.depth < depth
    · simp [ofLookup, hlt]
    · by_cases heq : u.depth = depth <;> simp [ofLookup, hlt, heq]

theorem ofLookup_sameFrame {depth id : Nat} {m : Option Symbol} :
    ofLookup depth m = .sameFrame id ↔ ∃ u, m = some u ∧ u.depth = depth ∧ u.id = id := by
  cases m with
  | none => simp [ofLookup]
  | some u =>
    by_cases hlt : u.depth < depth
    · simp [ofLookup, hlt, Nat.ne_of_lt hlt]
    · by_cases heq : u.depth = depth <;> simp [ofLookup, hlt, heq]

end Resolution

/-! ## The accesses of a constituent -/

namespace Sighting

variable {namePrefix : String} {p : Program} (s : Sighting namePrefix p.walk) (rules : MergeRules)
  (c : Constituent)

/-- A visit is an access of the vector by a swizzle that picks components of
the constituent only. -/
structure Picks (v : Visit) (swizzle : Swizzle) : Prop where
  expr : ∃ name, v.expr = .member (.ident s.declared.symbol.name) name ∧
    Swizzle.parse? name s.packing.width = some swizzle
  means : v.scope.lookup s.declared.symbol.name = some s.declared.symbol
  within : swizzle.isWithin c.offset c.width = true

theorem declared_mem : s.declared ∈ p.declared := by
  have h : .declare s.declared ∈ s.before ++ .declare s.declared :: s.after := by simp
  rw [← s.split] at h
  exact Program.mem_declared.2 h

theorem mem_walk {e : Event} (h : e ∈ s.after) : e ∈ p.walk := by
  rw [s.split]
  exact List.mem_append_right _ (List.mem_cons_of_mem _ h)

/-- The vector is in scope only behind its declaration. -/
theorem mem_after {v : Visit} (hv : .visit v ∈ p.walk)
    (h : s.declared.symbol ∈ v.scope.symbols) : .visit v ∈ s.after := by
  rw [s.split, List.mem_append, List.mem_cons] at hv
  rcases hv with hv | hv | hv
  · exact absurd (Program.id_lt_of_before s.split hv h) (Nat.lt_irrefl _)
  · cases hv
  · exact hv

variable {s c}

theorem swizzle?_eq_some {v : Visit} (hv : .visit v ∈ p.walk) {swizzle : Swizzle} :
    (s.watch c).swizzle? v = some swizzle ↔ s.Picks c v swizzle := by
  have hm := Program.means_iff s.declared_mem hv
  unfold Watch.swizzle?
  constructor
  · intro h
    split at h
    · next base name he =>
      split at h
      · next hb =>
        obtain ⟨rfl, hl⟩ := (hm base).1 hb
        obtain ⟨hs, hin⟩ := Option.filter_eq_some_iff.1 h
        exact ⟨⟨name, he, hs⟩, hl, hin⟩
      · cases h
    · cases h
  · rintro ⟨⟨name, he, hs⟩, hl, hin⟩
    simp only [he]
    have hb : (Expr.ident s.declared.symbol.name).means v.scope (s.watch c).vector = true :=
      (hm _).2 ⟨rfl, hl⟩
    rw [if_pos hb]
    exact Option.filter_eq_some_iff.2 ⟨hs, hin⟩

/-- An access has the type of as many components as it picks. -/
theorem Picks.typeOf {v : Visit} {swizzle : Swizzle} (h : s.Picks c v swizzle) (d : DeclaredTypes) :
    d.typeOf v.scope v.expr = some (.ofComponents s.packing.elem swizzle.length) := by
  obtain ⟨field, hfield, hparse⟩ := h.expr
  obtain ⟨-, htype, -⟩ := Symbol.packing?_eq_some.1 s.packed
  simp [hfield, DeclaredTypes.typeOf, h.means, htype, DataType.memberOf?, hparse]

/-- Something can stand for an access. -/
theorem Picks.exists_replacement {v : Visit} {swizzle : Swizzle} (h : s.Picks c v swizzle)
    (scalarSwizzles : Bool) (type : DataType) :
    ∃ new, c.replacement? scalarSwizzles type swizzle = some new := by
  obtain ⟨field, -, hparse⟩ := h.expr
  exact Option.isSome_iff_exists.1
    (Constituent.replacement?_isSome hparse scalarSwizzles c type h.within)

/-- There is one way only to read the field of an access. -/
theorem Picks.within_of_expr {v : Visit} {swizzle swizzle' : Swizzle} (h : s.Picks c v swizzle')
    {field : String} (hexpr : v.expr = .member (.ident s.declared.symbol.name) field)
    (hparse : Swizzle.parse? field s.packing.width = some swizzle) :
    swizzle.isWithin c.offset c.width = true := by
  obtain ⟨field', hexpr', hparse'⟩ := h.expr
  obtain ⟨-, rfl⟩ := Expr.member.inj (hexpr.symm.trans hexpr')
  obtain rfl := Option.some.inj (hparse.symm.trans hparse')
  exact h.within

/-- The accesses are what picks components of the constituent only. -/
theorem mem_accesses {a : Access} {m : Resolution} :
    (a, m) ∈ s.accesses rules c ↔ ∃ v ∈ p.visits, ∃ swizzle, s.Picks c v swizzle ∧
      c.replacement? rules.scalarSwizzles (c.type s.packing.elem) swizzle = some a.replacement ∧
        a.ordinal = v.ordinal ∧ a.snapshot = v.expr ∧
          m = .ofLookup s.declared.symbol.depth (v.scope.lookup c.name) := by
  simp only [Program.mem_visits, accesses, List.mem_filterMap]
  constructor
  · rintro ⟨e, he, h⟩
    cases e with
    | declare d => cases h
    | visit v =>
      obtain ⟨swizzle, hs, h⟩ := Option.bind_eq_some_iff.1 h
      obtain ⟨new, hn, h⟩ := Option.bind_eq_some_iff.1 h
      cases h
      exact ⟨v, s.mem_walk he, swizzle, (swizzle?_eq_some (s.mem_walk he)).1 hs, hn, rfl, rfl, rfl⟩
  · rintro ⟨v, hv, swizzle, hp, hn, ho, hs, rfl⟩
    refine ⟨.visit v, s.mem_after hv (ScopeTree.lookup_mem hp.means).1, ?_⟩
    obtain ⟨k, snapshot, new⟩ := a
    dsimp only at hn ho hs
    subst ho hs
    exact Option.bind_eq_some_iff.2 ⟨swizzle, (swizzle?_eq_some hv).2 hp,
      Option.bind_eq_some_iff.2 ⟨new, hn, rfl⟩⟩

/-- A constituent is accessed when something picks components of it only. -/
theorem accesses_ne_nil :
    s.accesses rules c ≠ [] ↔ ∃ v ∈ p.visits, ∃ swizzle, s.Picks c v swizzle := by
  constructor
  · intro h
    obtain ⟨⟨a, m⟩, ha⟩ := List.exists_mem_of_ne_nil _ h
    obtain ⟨v, hv, swizzle, hp, -⟩ := (mem_accesses rules).1 ha
    exact ⟨v, hv, swizzle, hp⟩
  · rintro ⟨v, hv, swizzle, hp⟩
    obtain ⟨new, hnew⟩ := hp.exists_replacement rules.scalarSwizzles (c.type s.packing.elem)
    exact List.ne_nil_of_mem ((mem_accesses rules (a := ⟨v.ordinal, v.expr, new⟩)).2
      ⟨v, hv, swizzle, hp, hnew, rfl, rfl, rfl⟩)

/-- What holds of the meaning of the name at all accesses. -/
theorem forall_accesses {P : Resolution → Prop} :
    (∀ a ∈ s.accesses rules c, P a.2) ↔
      ∀ v ∈ p.visits, ∀ swizzle, s.Picks c v swizzle →
        P (.ofLookup s.declared.symbol.depth (v.scope.lookup c.name)) := by
  constructor
  · intro h v hv swizzle hp
    obtain ⟨new, hnew⟩ := hp.exists_replacement rules.scalarSwizzles (c.type s.packing.elem)
    exact h _ ((mem_accesses rules (a := ⟨v.ordinal, v.expr, new⟩)).2
      ⟨v, hv, swizzle, hp, hnew, rfl, rfl, rfl⟩)
  · rintro h ⟨a, m⟩ ha
    obtain ⟨v, hv, swizzle, hp, -, -, -, rfl⟩ := (mem_accesses rules).1 ha
    exact h v hv swizzle hp

/-- At all accesses the name means something outside the frame of the vector, or
nothing. -/
theorem accesses_outer :
    (∀ a ∈ s.accesses rules c, a.2 = .undeclared ∨ a.2 = .outer) ↔
      ∀ v ∈ p.visits, ∀ swizzle, s.Picks c v swizzle →
        ∀ u, v.scope.lookup c.name = some u → u.depth < s.declared.symbol.depth := by
  simp only [s.forall_accesses rules (P := fun m => m = .undeclared ∨ m = .outer),
    Resolution.ofLookup_outer]

/-- The accesses are met in the order of their numbers. -/
theorem accesses_pairwise : (s.accesses rules c).Pairwise (·.1.ordinal < ·.1.ordinal) := by
  have hwalk : (Event.visits s.after).Pairwise (·.ordinal < ·.ordinal) := by
    have hall : (p.visits.map (·.ordinal)).Pairwise (· < ·) := by
      rw [Program.visits_ordinal]
      exact List.pairwise_lt_range
    rw [Program.visits_eq, congrArg Event.visits s.split, Event.visits_append,
      Event.visits_cons_declare, List.map_append, List.pairwise_append] at hall
    exact List.pairwise_map.1 hall.2.1
  rw [Event.visits, List.pairwise_filterMap] at hwalk
  rw [accesses, List.pairwise_filterMap]
  refine hwalk.imp fun {e e'} h a ha a' ha' => ?_
  have hof : ∀ {e : Event} {a : Access × Resolution}, (s.watch c).access? rules e = some a →
      ∃ v, e = .visit v ∧ a.1.ordinal = v.ordinal := by
    intro e a ha
    cases e with
    | declare d => cases ha
    | visit v =>
      obtain ⟨_, _, ha⟩ := Option.bind_eq_some_iff.1 ha
      obtain ⟨_, _, ha⟩ := Option.bind_eq_some_iff.1 ha
      cases ha
      exact ⟨v, rfl, rfl⟩
  obtain ⟨v, rfl, hv⟩ := hof ha
  obtain ⟨v', rfl, hv'⟩ := hof ha'
  rw [hv, hv']
  exact h v rfl v' rfl

end Sighting

end ShaderMorph
