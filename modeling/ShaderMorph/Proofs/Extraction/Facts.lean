-- What the analysis knows at the end, in closed form. The walk is folded into
-- facts event by event. Each vector is followed on its own from the event
-- that brings it in, and each of its constituents on its own, so that every
-- fact about a constituent is told by the events behind the declaration of
-- its vector alone, and the first facts by those before it.
import ShaderMorph.Extraction.Analysis
import ShaderMorph.Proofs.Walk.Scopes

namespace ShaderMorph

/-! ## What one event tells about one constituent -/

/-- What is looked for on the walk: uses of one constituent of one vector. -/
structure Watch where
  vector : Nat
  depth : Nat
  width : Nat
  constituent : Constituent
  type : DataType

/-- Whether an expression is a name that stands for the variable with this
id. -/
def Expr.means (e : Expr) (scope : ScopeTree) (id : Nat) : Bool :=
  (e.named? scope).any (·.id == id)

theorem Expr.means_of_named {e : Expr} {scope : ScopeTree} {s : Symbol}
    (h : e.named? scope = some s) (id : Nat) : e.means scope id = decide (id = s.id) := by
  simp [means, h, Bool.beq_eq_decide_eq, eq_comm]

namespace Watch

variable (w : Watch)

/-- The swizzle by which a visit accesses the vector, when all that it picks
belongs to the constituent. -/
def swizzle? (v : Visit) : Option Swizzle :=
  match v.expr with
  | .member base name =>
    if base.means v.scope w.vector then
      (Swizzle.parse? name w.width).filter (·.isWithin w.constituent.offset w.constituent.width)
    else none
  | _ => none

/-- The access to be replaced that an event is, and what the name of the
constituent means there. -/
def access? (rules : MergeRules) : Event → Option (Access × Resolution)
  | .declare _ => none
  | .visit v => do
    let s ← w.swizzle? v
    let replacement ← w.constituent.replacement? rules.scalarSwizzles w.type s
    return (⟨v.ordinal, v.expr, replacement⟩,
      .ofLookup w.depth (v.scope.lookup w.constituent.name))

/-- Whether an event is an access of the whole constituent to which the
oracle gives another type. -/
def mistypes (rules : MergeRules) : Event → Bool
  | .declare _ => false
  | .visit v => (w.swizzle? v).any fun s =>
    s.isExactly w.constituent.offset w.constituent.width &&
      rules.oracle v.expr v.scope != some w.type

/-- Whether an event uses an outer variable of the name of the constituent. -/
def captures : Event → Bool
  | .declare _ => false
  | .visit v =>
    match v.expr with
    | .ident name =>
      (v.scope.lookup name).any (·.depth < w.depth) && v.scope.binds w.vector &&
        w.constituent.name == name
    | _ => false

/-- Whether a declaration is one of the name of the constituent in the frame
of the vector. -/
def joins (d : Declared) : Bool :=
  d.scope.depth == w.depth && d.scope.binds w.vector && d.symbol.name == w.constituent.name

/-- The declarations of the name in the frame of the vector, after an event. -/
def joined (e : Event) (f : SameFrame) : SameFrame :=
  match e with
  | .visit _ => f
  | .declare d => if w.joins d then f.add d.symbol w.type else f

end Watch

/-- The facts about a constituent after an event. -/
def ConstituentFacts.note (rules : MergeRules) (w : Watch) (e : Event) (c : ConstituentFacts) :
    ConstituentFacts :=
  { c with
    sameFrame := w.joined e c.sameFrame
    capturesOuter := c.capturesOuter || w.captures e
    typeMismatch := c.typeMismatch || w.mistypes rules e
    accesses := c.accesses ++ (w.access? rules e).toList }

namespace MergedVector

def watch (v : MergedVector) (c : ConstituentFacts) : Watch :=
  ⟨v.id, v.depth, v.width, c.constituent, c.type⟩

/-- Whether an event uses a vector of this width in a way that no swizzle can
follow. -/
def opaqueBy (id width : Nat) : Event → Bool
  | .declare _ => false
  | .visit v =>
    match v.expr with
    | .member base name => base.means v.scope id && (Swizzle.parse? name width).isNone
    | .index base _ => base.means v.scope id
    | _ => false

/-- A visit uses a vector in a way that no swizzle follows when it takes an
element of it, or a member that is no swizzle. -/
theorem opaqueBy_visit {id width : Nat} {w : Visit} :
    opaqueBy id width (.visit w) = true ↔
      ∃ base, base.means w.scope id = true ∧
        ((∃ name, w.expr = .member base name ∧ Swizzle.parse? name width = none) ∨
          ∃ position, w.expr = .index base position) := by
  rw [opaqueBy]
  cases w.expr with
  | member base name => simp
  | index base position => simp
  | _ => simp

/-- The facts about a vector after an event. -/
def note (rules : MergeRules) (e : Event) (v : MergedVector) : MergedVector :=
  { v with
    opaqueUse := v.opaqueUse || opaqueBy v.id v.width e
    constituents := v.constituents.map fun c => c.note rules (v.watch c) e }

end MergedVector

/-! ## One event and one vector

The analysis looks at the kind of the event first, and at what concerns all
constituents alike before it goes through them. Here each constituent is
told its own part. -/

namespace ConstituentFacts

variable (rules : MergeRules) (w : Watch) (c : ConstituentFacts)

theorem note_declare (d : Declared) :
    c.note rules w (.declare d) =
      if w.joins d then { c with sameFrame := c.sameFrame.add d.symbol w.type } else c := by
  unfold note
  split <;> simp_all [Watch.joined, Watch.captures, Watch.mistypes, Watch.access?]

theorem note_ident {v : Visit} {name : String} (hv : v.expr = .ident name) :
    c.note rules w (.visit v) =
      { c with capturesOuter := c.capturesOuter || w.captures (.visit v) } := by
  simp [note, Watch.joined, Watch.mistypes, Watch.access?, Watch.swizzle?, hv]

theorem note_member {v : Visit} {base : Expr} {name : String} (hv : v.expr = .member base name) :
    c.note rules w (.visit v) =
      { c with
        typeMismatch := c.typeMismatch || w.mistypes rules (.visit v)
        accesses := c.accesses ++ (w.access? rules (.visit v)).toList } := by
  simp [note, Watch.joined, Watch.captures, hv]

theorem note_of_no_swizzle {v : Visit} (hn : ∀ name, v.expr ≠ .ident name)
    (hs : w.swizzle? v = none) : c.note rules w (.visit v) = c := by
  have hc : w.captures (.visit v) = false := by
    cases h : v.expr <;> simp_all [Watch.captures]
  simp [note, Watch.joined, hc, Watch.mistypes, Watch.access?, hs]

theorem noteAccess_eq {v : Visit} {base : Expr} {name : String} {s : Swizzle}
    (hv : v.expr = .member base name) (hb : base.means v.scope w.vector = true)
    (hs : Swizzle.parse? name w.width = some s) (hc : w.constituent = c.constituent)
    (ht : w.type = c.type) :
    c.noteAccess rules w.depth s v = c.note rules w (.visit v) := by
  have hw : w.swizzle? v =
      if s.isWithin c.constituent.offset c.constituent.width then some s else none := by
    simp [Watch.swizzle?, hv, hb, hs, hc, Option.filter]
  unfold noteAccess
  split
  · next hin =>
    simp only [hin, if_true] at hw
    rw [note_member rules w c hv]
    cases hr : c.constituent.replacement? rules.scalarSwizzles c.type s with
    | none =>
      have hex : s.isExactly c.constituent.offset c.constituent.width = false := by
        rw [Bool.eq_false_iff]
        intro hex
        simp [Constituent.replacement?, hex] at hr
      simp [Watch.mistypes, Watch.access?, hw, hc, ht, hr, hex]
    | some r => simp [Watch.mistypes, Watch.access?, hw, hc, ht, hr]
  · next hin =>
    have hw : w.swizzle? v = none := by simp [hw, hin]
    rw [note_of_no_swizzle rules w c (by simp [hv]) hw]

end ConstituentFacts

namespace MergedVector

variable (rules : MergeRules)

theorem note_declare (d : Declared) (v : MergedVector) :
    v.note rules (.declare d) = v.noteDeclaration d := by
  have hc : ∀ c : ConstituentFacts, c.note rules (v.watch c) (.declare d) =
      if v.depth = d.scope.depth ∧ d.scope.binds v.id then
        if c.constituent.name = d.symbol.name then
          { c with sameFrame := c.sameFrame.add d.symbol c.type }
        else c
      else c := by
    intro c
    have hj : (v.watch c).joins d =
        (decide (v.depth = d.scope.depth ∧ d.scope.binds v.id = true) &&
          decide (c.constituent.name = d.symbol.name)) := by
      simp only [Watch.joins, watch, Bool.beq_eq_decide_eq, Bool.decide_and, Bool.decide_eq_true,
        eq_comm (a := d.scope.depth), eq_comm (a := d.symbol.name)]
    rw [ConstituentFacts.note_declare, hj]
    split <;> split <;> simp_all [watch]
  unfold note noteDeclaration
  simp only [hc, opaqueBy, Bool.or_false]
  split
  · rfl
  · simp

theorem note_ident {w : Visit} {name : String} (hw : w.expr = .ident name) (v : MergedVector) :
    v.note rules (.visit w) =
      match w.scope.lookup name with
      | none => v
      | some s => v.noteOuterUse name s w.scope := by
  have hc : ∀ c : ConstituentFacts, c.note rules (v.watch c) (.visit w) =
      if (w.scope.lookup name).any (·.depth < v.depth) && w.scope.binds v.id then
        if c.constituent.name = name then { c with capturesOuter := true } else c
      else c := by
    intro c
    have hw' : (v.watch c).captures (.visit w) =
        ((w.scope.lookup name).any (·.depth < v.depth) && w.scope.binds v.id &&
          c.constituent.name == name) := by
      simp only [Watch.captures, hw]
      rfl
    rw [ConstituentFacts.note_ident rules _ c hw, hw']
    generalize ((w.scope.lookup name).any (·.depth < v.depth) && w.scope.binds v.id) = outer
    by_cases hn : c.constituent.name = name
    · cases outer <;> simp [hn]
    · have hb : (c.constituent.name == name) = false := by simpa using hn
      cases outer <;> simp [hn, hb]
  unfold note
  simp only [hc, opaqueBy, hw, Bool.or_false]
  cases hl : w.scope.lookup name with
  | none => simp
  | some s =>
    unfold noteOuterUse
    by_cases hs : s.depth < v.depth ∧ w.scope.binds v.id = true
    · simp [hs]
    · have hb : (decide (s.depth < v.depth) && w.scope.binds v.id) = false := by simpa using hs
      simp [hs, hb]

theorem note_member {w : Visit} {base : Expr} {name : String} (hw : w.expr = .member base name)
    (v : MergedVector) :
    v.note rules (.visit w) =
      if base.means w.scope v.id then v.noteMember rules name w else v := by
  split
  · next hb =>
    unfold noteMember
    cases hs : Swizzle.parse? name v.width with
    | none =>
      have hc : ∀ c : ConstituentFacts, c.note rules (v.watch c) (.visit w) = c := fun c =>
        c.note_of_no_swizzle rules _ (by simp [hw]) (by simp [Watch.swizzle?, hw, watch, hs])
      simp [note, hc, opaqueBy, hw, hb, hs]
    | some s =>
      have hc : ∀ c : ConstituentFacts, c.note rules (v.watch c) (.visit w) =
          c.noteAccess rules v.depth s w := fun c =>
        (c.noteAccess_eq rules (v.watch c) hw hb hs rfl rfl).symm
      simp [note, hc, opaqueBy, hw, hs]
  · next hb =>
    have hc : ∀ c : ConstituentFacts, c.note rules (v.watch c) (.visit w) = c := fun c =>
      c.note_of_no_swizzle rules _ (by simp [hw]) (by simp [Watch.swizzle?, hw, watch, hb])
    simp [note, hc, opaqueBy, hw, hb]

/-- An expression that neither is a name nor picks a member can only be an
index. -/
theorem note_of_other {w : Visit} (hi : ∀ name, w.expr ≠ .ident name)
    (hm : ∀ base name, w.expr ≠ .member base name) (v : MergedVector) :
    v.note rules (.visit w) =
      { v with opaqueUse := v.opaqueUse || opaqueBy v.id v.width (.visit w) } := by
  have hs : ∀ c : ConstituentFacts, (v.watch c).swizzle? w = none := by
    intro c
    cases h : w.expr <;> simp_all [Watch.swizzle?]
  have hc : ∀ c : ConstituentFacts, c.note rules (v.watch c) (.visit w) = c := fun c =>
    c.note_of_no_swizzle rules _ hi (hs c)
  simp [note, hc]

end MergedVector

/-! ## One event and all vectors -/

namespace MergeFacts

/-- The vector that an event brings in. -/
def born? (rules : MergeRules) (f : MergeFacts) : Event → Option MergedVector
  | .visit _ => none
  | .declare d =>
    MergeFacts.vectorOf? rules
      { f with
        vectors := f.vectors.map (·.noteDeclaration d)
        locations := (d.symbol.id, d.location) :: f.locations } d

variable (rules : MergeRules) (f : MergeFacts)

/-- Every vector so far takes note of an event on its own. -/
theorem vectors_note (e : Event) :
    (f.note rules e).vectors = f.vectors.map (·.note rules e) ++ (f.born? rules e).toList := by
  cases e with
  | declare d =>
    have hd : (fun v : MergedVector => v.note rules (.declare d)) = (·.noteDeclaration d) :=
      funext fun v => v.note_declare rules d
    simp only [note, noteDeclaration, born?, hd]
  | visit w =>
    have hnone : (f.born? rules (.visit w)).toList = [] := rfl
    rw [hnone, List.append_nil]
    simp only [note, noteVisit]
    cases hw : w.expr with
    | ident name =>
      have hv : (fun v : MergedVector => v.note rules (.visit w)) = fun v =>
          match w.scope.lookup name with
          | none => v
          | some s => v.noteOuterUse name s w.scope :=
        funext fun v => v.note_ident rules hw
      rw [hv]
      cases hl : w.scope.lookup name <;> cases hi : w.around.initializerOf <;> simp [hl]
    | member base name =>
      have hv : (fun v : MergedVector => v.note rules (.visit w)) = fun v =>
          if base.means w.scope v.id then v.noteMember rules name w else v :=
        funext fun v => v.note_member rules hw
      rw [hv]
      cases hb : base.named? w.scope with
      | none => simp [Expr.means, hb]
      | some s => simp [Expr.means_of_named hb, hb, updateVector]
    | index base position =>
      have hv : (fun v : MergedVector => v.note rules (.visit w)) = fun v =>
          { v with opaqueUse := v.opaqueUse || base.means w.scope v.id } :=
        funext fun v => by
          rw [v.note_of_other rules (by simp [hw]) (by simp [hw])]
          simp [MergedVector.opaqueBy, hw]
      rw [hv]
      cases hb : base.named? w.scope with
      | none => simp [Expr.means, hb]
      | some s =>
        simp only [Expr.means_of_named hb, hb, updateVector]
        refine List.map_congr_left fun v _ => ?_
        by_cases hid : v.id = s.id <;> simp [hid]
    | _ =>
      have hv : (fun v : MergedVector => v.note rules (.visit w)) = id :=
        funext fun v => by
          rw [v.note_of_other rules (by simp [hw]) (by simp [hw])]
          simp [MergedVector.opaqueBy, hw]
      rw [hv]
      simp

end MergeFacts

end ShaderMorph
