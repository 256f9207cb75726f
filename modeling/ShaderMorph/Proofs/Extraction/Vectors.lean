-- The merged vectors of a walk. Each of them is sighted at one declaration,
-- and what the analysis knows of it at the end is told by the stretch of the
-- walk before that declaration and the stretch behind it.
import Mathlib.Data.List.Induction
import ShaderMorph.Proofs.Extraction.Facts

namespace ShaderMorph

/-! ## Declarations of one name in one frame -/

/-- What several declarations of a name in the frame of a vector amount to. -/
def SameFrame.ofSymbols (symbols : List Symbol) (type : DataType) : SameFrame :=
  match symbols with
  | [] => .absent
  | [s] => .ofSymbol s type
  | _ => .incompatible

theorem SameFrame.ofSymbols_snoc (symbols : List Symbol) (s : Symbol) (type : DataType) :
    ofSymbols (symbols ++ [s]) type = (ofSymbols symbols type).add s type := by
  match symbols with
  | [] => rfl
  | [u] => by_cases h : u.type = type <;> simp [ofSymbols, add, ofSymbol, h]
  | u :: u' :: us => simp [ofSymbols, add]

theorem SameFrame.ofSymbols_eq_absent {symbols : List Symbol} {type : DataType} :
    ofSymbols symbols type = .absent ↔ symbols = [] := by
  match symbols with
  | [] => simp [ofSymbols]
  | [u] => by_cases h : u.type = type <;> simp [ofSymbols, ofSymbol, h]
  | u :: u' :: us => simp [ofSymbols]

theorem SameFrame.ofSymbols_eq_compatible {symbols : List Symbol} {type : DataType} {id : Nat} :
    ofSymbols symbols type = .compatible id ↔
      ∃ s, symbols = [s] ∧ s.type = type ∧ s.id = id := by
  match symbols with
  | [] => simp [ofSymbols]
  | [u] => by_cases h : u.type = type <;> simp [ofSymbols, ofSymbol, h]
  | u :: u' :: us => simp [ofSymbols]

/-! ## What a name packs -/

/-- What is packed into a merged vector: the kind and the number of its
components, and the constituents in the order of its name. -/
structure Packing where
  elem : ElementKind
  width : Nat
  constituents : List Constituent

/-- What is packed into a variable, when it is a merged vector. -/
def Symbol.packing? (namePrefix : String) (s : Symbol) : Option Packing :=
  match s.type with
  | .vector elem width =>
    if s.kind = .parameter then none
    else
      match Provenance.decode s.name namePrefix with
      | .error _ => none
      | .ok provenance =>
        if width < provenance.span then none else some ⟨elem, width, provenance.constituents⟩
  | _ => none

/-- What is packed into a variable is told by its kind, its type and its
name. -/
theorem Symbol.packing?_eq_some {namePrefix : String} {s : Symbol} {m : Packing} :
    s.packing? namePrefix = some m ↔ s.kind ≠ .parameter ∧ s.type = .vector m.elem m.width ∧
      ∃ provenance, Provenance.decode s.name namePrefix = .ok provenance ∧
        provenance.span ≤ m.width ∧ m.constituents = provenance.constituents := by
  unfold packing?
  constructor
  · intro h
    split at h
    · next elem width htype =>
      split at h
      · cases h
      · next hkind =>
        split at h
        · cases h
        · next provenance hdecode =>
          split at h
          · cases h
          · next hspan =>
            obtain rfl := Option.some.inj h
            exact ⟨hkind, htype, provenance, hdecode, Nat.le_of_not_lt hspan, rfl⟩
    · cases h
  · rintro ⟨hkind, htype, provenance, hdecode, hspan, hcs⟩
    simp only [htype, hkind, hdecode, Nat.not_lt.2 hspan, if_false, ← hcs]

/-- Whether a declaration is one of a merged vector of this name. -/
def Declared.packs (namePrefix name : String) (d : Declared) : Bool :=
  (d.symbol.packing? namePrefix).isSome && d.symbol.name == name

theorem MergeFacts.vectorOf?_eq (rules : MergeRules) (f : MergeFacts) (d : Declared) :
    f.vectorOf? rules d = (d.symbol.packing? rules.namePrefix).map fun m =>
      { id := d.symbol.id
        name := d.symbol.name
        depth := d.symbol.depth
        location := d.location
        occurrence := f.vectors.countP (·.name == d.symbol.name)
        width := m.width
        opaqueUse := false
        constituents := m.constituents.map fun c =>
          { constituent := c
            type := c.type m.elem
            sameFrame :=
              .ofSymbols (d.scope.lookupInCurrentFrame c.name).toList (c.type m.elem)
            capturesOuter := f.groupReads d c.name
            typeMismatch := false
            accesses := [] } } := by
  unfold vectorOf? Symbol.packing?
  cases d.symbol.type with
  | vector elem width =>
    simp only
    by_cases hk : d.symbol.kind = .parameter
    · simp [hk]
    · simp only [hk, if_false]
      cases Provenance.decode d.symbol.name rules.namePrefix with
      | error e => rfl
      | ok provenance =>
        simp only
        by_cases hw : width < provenance.span
        · simp [hw]
        · simp only [hw, if_false, Option.map_some, Option.some.injEq, MergedVector.mk.injEq,
            true_and]
          refine List.map_congr_left fun c _ => ?_
          cases d.scope.lookupInCurrentFrame c.name <;> rfl
  | _ => rfl

/-! ## Reads in initializers -/

/-- The read of a name in an initializer that a visit is. -/
def Visit.initializerRead? (v : Visit) : Option InitializerRead :=
  match v.expr, v.around.initializerOf with
  | .ident name, some reader => some ⟨reader, name, (v.scope.lookup name).map (·.depth)⟩
  | _, _ => none

namespace MergeFacts

variable (rules : MergeRules)

theorem ofEvents_snoc (es : List Event) (e : Event) :
    ofEvents rules (es ++ [e]) = (ofEvents rules es).note rules e := by
  simp [ofEvents, List.foldl_append]

theorem reads_noteVisit (f : MergeFacts) (v : Visit) :
    (f.noteVisit rules v).reads = f.reads ++ v.initializerRead?.toList := by
  unfold noteVisit Visit.initializerRead?
  cases v.expr with
  | ident name =>
    cases hi : v.around.initializerOf <;> cases hl : v.scope.lookup name <;> simp [hl]
  | member base name => cases h : base.named? v.scope <;> simp [h, updateVector]
  | index base position => cases h : base.named? v.scope <;> simp [h, updateVector]
  | _ => simp

theorem reads_ofEvents (es : List Event) :
    (ofEvents rules es).reads = (Event.visits es).filterMap (·.initializerRead?) := by
  induction es using List.reverseRecOn with
  | nil => rfl
  | append_singleton es e ih =>
    rw [ofEvents_snoc, Event.visits_append, List.filterMap_append, ← ih]
    cases e with
    | declare d => simp [note, noteDeclaration]
    | visit v =>
      rw [note, reads_noteVisit]
      cases h : v.initializerRead? <;> simp [h]

theorem locations_noteVisit (f : MergeFacts) (v : Visit) :
    (f.noteVisit rules v).locations = f.locations := by
  unfold noteVisit
  cases v.expr with
  | ident name =>
    cases hi : v.around.initializerOf <;> cases hl : v.scope.lookup name <;> simp [hl]
  | member base name => cases h : base.named? v.scope <;> simp [h, updateVector]
  | index base position => cases h : base.named? v.scope <;> simp [h, updateVector]
  | _ => simp

theorem locations_ofEvents (es : List Event) :
    (ofEvents rules es).locations =
      ((Event.declared es).map fun d => (d.symbol.id, d.location)).reverse := by
  induction es using List.reverseRecOn with
  | nil => rfl
  | append_singleton es e ih =>
    rw [ofEvents_snoc]
    cases e with
    | declare d => simp [note, noteDeclaration, ih]
    | visit v => simp [note, locations_noteVisit, ih]

end MergeFacts

/-- Whether an initializer in the group of a declaration, up to its own,
reads an outer variable of this name, by what was met before it. -/
def Declared.groupReads (before : List Event) (d : Declared) (name : String) : Bool :=
  ((Event.visits before).filterMap (·.initializerRead?)).any fun r =>
    (r.reader == d.symbol.id ||
      (d :: Event.declared before).any fun d' =>
        d'.symbol.id == r.reader && d'.location.precedesInGroup d.location) &&
      r.name == name && r.depth.any (· < d.symbol.depth)

/-! ## Sightings -/

/-- A declaration of a merged vector among events. -/
structure Sighting (namePrefix : String) (events : List Event) where
  before : List Event
  declared : Declared
  after : List Event
  packing : Packing
  split : events = before ++ .declare declared :: after
  packed : declared.symbol.packing? namePrefix = some packing

namespace Sighting

variable {namePrefix : String} {events : List Event} (s : Sighting namePrefix events)

/-- What is looked for behind the declaration, for one constituent. -/
def watch (c : Constituent) : Watch :=
  ⟨s.declared.symbol.id, s.declared.symbol.depth, s.packing.width, c, c.type s.packing.elem⟩

/-- The number of merged vectors of the same name before this one. -/
def occurrence : Nat :=
  (Event.declared s.before).countP (·.packs namePrefix s.declared.symbol.name)

/-- The declarations of a name in the frame of the vector. -/
def frameSymbols (c : Constituent) : List Symbol :=
  (s.declared.scope.lookupInCurrentFrame c.name).toList ++
    ((Event.declared s.after).filter (s.watch c).joins).map (·.symbol)

/-- What is known of a constituent in the end. -/
def facts (rules : MergeRules) (c : Constituent) : ConstituentFacts where
  constituent := c
  type := c.type s.packing.elem
  sameFrame := .ofSymbols (s.frameSymbols c) (c.type s.packing.elem)
  capturesOuter := s.declared.groupReads s.before c.name || s.after.any (s.watch c).captures
  typeMismatch := s.after.any ((s.watch c).mistypes rules)
  accesses := s.after.filterMap ((s.watch c).access? rules)

/-- What is known of the vector in the end. -/
def vector (rules : MergeRules) : MergedVector where
  id := s.declared.symbol.id
  name := s.declared.symbol.name
  depth := s.declared.symbol.depth
  location := s.declared.location
  occurrence := s.occurrence
  width := s.packing.width
  opaqueUse := s.after.any (MergedVector.opaqueBy s.declared.symbol.id s.packing.width)
  constituents := s.packing.constituents.map (s.facts rules)

/-- The same sighting when one more event is met. -/
def extend (e : Event) : Sighting namePrefix (events ++ [e]) where
  before := s.before
  declared := s.declared
  after := s.after ++ [e]
  packing := s.packing
  split := by simp [s.split]
  packed := s.packed

@[simp] theorem extend_before (e : Event) : (s.extend e).before = s.before := rfl

@[simp] theorem extend_declared (e : Event) : (s.extend e).declared = s.declared := rfl

@[simp] theorem extend_after (e : Event) : (s.extend e).after = s.after ++ [e] := rfl

@[simp] theorem extend_packing (e : Event) : (s.extend e).packing = s.packing := rfl

@[simp] theorem watch_extend (e : Event) (c : Constituent) :
    (s.extend e).watch c = s.watch c := rfl

/-- The sighting that a declaration is. -/
def new (events : List Event) {d : Declared} {m : Packing}
    (h : d.symbol.packing? namePrefix = some m) : Sighting namePrefix (events ++ [.declare d]) :=
  ⟨events, d, [], m, rfl, h⟩

theorem frameSymbols_extend (e : Event) (c : Constituent) :
    SameFrame.ofSymbols ((s.extend e).frameSymbols c) (c.type s.packing.elem) =
      (s.watch c).joined e (.ofSymbols (s.frameSymbols c) (c.type s.packing.elem)) := by
  have ht : (s.watch c).type = c.type s.packing.elem := rfl
  cases e with
  | visit v => simp [frameSymbols, Watch.joined]
  | declare d =>
    by_cases hj : (s.watch c).joins d = true
    · simp only [Watch.joined, hj, if_true, ht]
      rw [← SameFrame.ofSymbols_snoc]
      simp [frameSymbols, hj]
    · simp [frameSymbols, Watch.joined, hj]

theorem facts_extend (rules : MergeRules) (e : Event) (c : Constituent) :
    (s.extend e).facts rules c = (s.facts rules c).note rules (s.watch c) e := by
  unfold facts ConstituentFacts.note
  simp only [watch_extend, extend_packing, frameSymbols_extend]
  cases h : (s.watch c).access? rules e <;> simp [Bool.or_assoc, h]

theorem vector_extend (rules : MergeRules) (e : Event) :
    (s.extend e).vector rules = (s.vector rules).note rules e := by
  have hc : (s.extend e).packing.constituents.map ((s.extend e).facts rules) =
      (s.packing.constituents.map (s.facts rules)).map fun c =>
        c.note rules ((s.vector rules).watch c) e := by
    rw [List.map_map]
    exact List.map_congr_left fun c _ => s.facts_extend rules e c
  have ho : (s.extend e).after.any (MergedVector.opaqueBy s.declared.symbol.id s.packing.width) =
      (s.after.any (MergedVector.opaqueBy s.declared.symbol.id s.packing.width) ||
        MergedVector.opaqueBy s.declared.symbol.id s.packing.width e) := by simp
  unfold vector MergedVector.note
  rw [hc, extend_declared, extend_packing, ho]
  rfl

end Sighting

/-- Events that end with one more are sighted where they were before, or at
that one. -/
theorem Sighting.snoc_cases {namePrefix : String} {events : List Event} {e : Event}
    (s : Sighting namePrefix (events ++ [e])) :
    (∃ u : Sighting namePrefix events, s = u.extend e) ∨
      ∃ d m, d.symbol.packing? namePrefix = some m ∧ e = .declare d ∧ s.before = events ∧
        s.declared = d ∧ s.after = [] ∧ s.packing = m := by
  obtain ⟨before, d, after, m, split, packed⟩ := s
  rcases List.eq_nil_or_concat after with rfl | ⟨after, e', rfl⟩
  · right
    obtain ⟨rfl, he⟩ := List.append_inj' split rfl
    simp only [List.cons.injEq, and_true] at he
    exact ⟨d, m, packed, he, rfl, rfl, rfl, rfl⟩
  · left
    rw [List.concat_eq_append, ← List.cons_append, ← List.append_assoc] at split
    obtain ⟨hs, he⟩ := List.append_inj' split rfl
    simp only [List.cons.injEq, and_true] at he
    subst he
    exact ⟨⟨before, d, after, m, hs, packed⟩, by simp [extend]⟩

namespace MergeFacts

variable (rules : MergeRules)

theorem countP_name_note (es : List Event) (name : String) :
    (ofEvents rules es).vectors.countP (·.name == name) =
      (Event.declared es).countP (·.packs rules.namePrefix name) := by
  induction es using List.reverseRecOn with
  | nil => rfl
  | append_singleton es e ih =>
    have hn : ((fun v : MergedVector => v.name == name) ∘ MergedVector.note rules e) =
        fun v => v.name == name := rfl
    rw [ofEvents_snoc, vectors_note, List.countP_append, List.countP_map, hn, ih,
      Event.declared_append, List.countP_append]
    cases e with
    | visit v => rfl
    | declare d =>
      rw [born?, vectorOf?_eq]
      cases h : d.symbol.packing? rules.namePrefix <;> simp [Declared.packs, h, List.countP_cons]

/-- What a declaration of a merged vector brings in is what is known of a
vector that was just sighted. -/
theorem born?_of_packing (es : List Event) {d : Declared} {m : Packing}
    (h : d.symbol.packing? rules.namePrefix = some m) :
    (ofEvents rules es).born? rules (.declare d) =
      some ((Sighting.new es h).vector rules) := by
  have hr : ∀ name, MergeFacts.groupReads
      { ofEvents rules es with
        vectors := (ofEvents rules es).vectors.map (·.noteDeclaration d)
        locations := (d.symbol.id, d.location) :: (ofEvents rules es).locations } d name =
      d.groupReads es name := by
    intro name
    simp only [groupReads, Declared.groupReads, reads_ofEvents, locations_ofEvents,
      List.any_cons, List.any_reverse, List.any_map, Function.comp_def]
  have ho : ((ofEvents rules es).vectors.map (·.noteDeclaration d)).countP
      (·.name == d.symbol.name) =
      (Event.declared es).countP (·.packs rules.namePrefix d.symbol.name) := by
    rw [← countP_name_note, List.countP_map]
    refine List.countP_congr fun v _ => ?_
    simp only [Function.comp_apply, ← v.note_declare rules d]
    rfl
  rw [born?, vectorOf?_eq]
  simp only [hr, ho, h, Option.map_some, Sighting.vector, Sighting.new, Sighting.occurrence,
    Option.some.injEq, MergedVector.mk.injEq, true_and]
  refine ⟨rfl, List.map_congr_left fun c _ => ?_⟩
  simp [Sighting.facts, Sighting.frameSymbols]

theorem born?_eq_none (f : MergeFacts) {d : Declared}
    (h : d.symbol.packing? rules.namePrefix = none) : f.born? rules (.declare d) = none := by
  rw [born?, vectorOf?_eq, h]
  rfl

/-- The vectors that the analysis knows are those that are sighted. -/
theorem mem_vectors {events : List Event} {v : MergedVector} :
    v ∈ (ofEvents rules events).vectors ↔
      ∃ s : Sighting rules.namePrefix events, s.vector rules = v := by
  induction events using List.reverseRecOn generalizing v with
  | nil =>
    constructor
    · intro h
      cases h
    · rintro ⟨s, -⟩
      have := s.split
      simp at this
  | append_singleton es e ih =>
    rw [ofEvents_snoc, vectors_note, List.mem_append, List.mem_map]
    constructor
    · rintro (⟨u, hu, rfl⟩ | h)
      · obtain ⟨s, rfl⟩ := ih.1 hu
        exact ⟨s.extend e, s.vector_extend rules e⟩
      · cases e with
        | visit w => cases h
        | declare d =>
          cases hm : d.symbol.packing? rules.namePrefix with
          | none => simp [born?_eq_none rules _ hm] at h
          | some m =>
            rw [born?_of_packing rules es hm, Option.toList_some, List.mem_singleton] at h
            exact ⟨_, h.symm⟩
    · rintro ⟨s, rfl⟩
      rcases s.snoc_cases with ⟨u, rfl⟩ | ⟨d, m, h, rfl, hb, hd, ha, hp⟩
      · exact Or.inl ⟨u.vector rules, ih.2 ⟨u, rfl⟩, (u.vector_extend rules e).symm⟩
      · right
        obtain ⟨before, d', after, m', hs, hp'⟩ := s
        dsimp only at hb hd ha hp
        subst hb hd ha hp
        rw [born?_of_packing rules _ h, Option.toList_some, List.mem_singleton]
        rfl

end MergeFacts

theorem Sighting.declared_events {namePrefix : String} {events : List Event}
    (s : Sighting namePrefix events) :
    Event.declared events = Event.declared s.before ++ s.declared :: Event.declared s.after := by
  rw [congrArg Event.declared s.split, Event.declared_append, Event.declared_cons_declare]

/-- A vector that is sighted counts among those of its name. -/
theorem Sighting.occurrence_lt {namePrefix : String} {events : List Event}
    (s : Sighting namePrefix events) :
    s.occurrence < (Event.declared events).countP (·.packs namePrefix s.declared.symbol.name) := by
  have hp : s.declared.packs namePrefix s.declared.symbol.name = true := by
    simp [Declared.packs, s.packed]
  rw [s.declared_events, List.countP_append, List.countP_cons_of_pos hp]
  unfold occurrence
  omega

/-- Two merged vectors of one name differ in their occurrence. -/
theorem MergeFacts.vectors_pairwise (rules : MergeRules) (events : List Event) :
    (ofEvents rules events).vectors.Pairwise
      fun a b => a.name = b.name → a.occurrence ≠ b.occurrence := by
  induction events using List.reverseRecOn with
  | nil => exact List.Pairwise.nil
  | append_singleton es e ih =>
    rw [ofEvents_snoc, vectors_note, List.pairwise_append]
    refine ⟨List.pairwise_map.2 ih, ?_, ?_⟩
    · cases (ofEvents rules es).born? rules e <;> simp
    · intro a ha b hb hname
      obtain ⟨u, hu, rfl⟩ := List.mem_map.1 ha
      obtain ⟨s, rfl⟩ := (mem_vectors rules).1 hu
      cases e with
      | visit v => cases hb
      | declare d =>
        cases hm : d.symbol.packing? rules.namePrefix with
        | none => simp [born?_eq_none rules _ hm] at hb
        | some m =>
          rw [born?_of_packing rules es hm, Option.toList_some, List.mem_singleton] at hb
          subst hb
          have hd : s.declared.symbol.name = d.symbol.name := hname
          have hlt := s.occurrence_lt
          rw [hd] at hlt
          exact Nat.ne_of_lt hlt

end ShaderMorph
