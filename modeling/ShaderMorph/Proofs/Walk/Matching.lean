-- Two walks side by side. Their declarations are matched in order, and so are
-- their identifiers; what an identifier stands for is then told by the place
-- of its declaration.
import Mathlib.Data.List.Forall2
import ShaderMorph.Proofs.Walk.Numbering

namespace ShaderMorph

/-! ## Lists side by side -/

theorem forall₂_mem {R : α → β → Prop} {l : List α} {l' : List β} (h : List.Forall₂ R l l') :
    List.Forall₂ (fun a b => a ∈ l ∧ b ∈ l' ∧ R a b) l l' := by
  induction h with
  | nil => exact .nil
  | cons hab _ ih =>
    refine .cons ⟨List.mem_cons_self, List.mem_cons_self, hab⟩ (ih.imp ?_)
    rintro a b ⟨ha, hb, h⟩
    exact ⟨List.mem_cons_of_mem _ ha, List.mem_cons_of_mem _ hb, h⟩

theorem forall₂_left {R : α → β → Prop} {l : List α} {l' : List β} (h : List.Forall₂ R l l') {a : α}
    (ha : a ∈ l) : ∃ b ∈ l', R a b := by
  induction h with
  | nil => cases ha
  | cons hab _ ih =>
    rcases List.mem_cons.1 ha with rfl | ha
    · exact ⟨_, List.mem_cons_self, hab⟩
    · obtain ⟨b, hb, h⟩ := ih ha
      exact ⟨b, List.mem_cons_of_mem _ hb, h⟩

theorem forall₂_right {R : α → β → Prop} {l : List α} {l' : List β} (h : List.Forall₂ R l l')
    {b : β} (hb : b ∈ l') : ∃ a ∈ l, R a b :=
  forall₂_left h.flip hb

theorem forall₂_comp {R : α → β → Prop} {S : β → γ → Prop} {T : α → γ → Prop} {l₁ : List α}
    {l₂ : List β} {l₃ : List γ} (h : List.Forall₂ R l₁ l₂) (h' : List.Forall₂ S l₂ l₃)
    (hT : ∀ a b c, a ∈ l₁ → R a b → S b c → T a c) : List.Forall₂ T l₁ l₃ := by
  induction h generalizing l₃ with
  | nil =>
    cases h'
    exact .nil
  | cons hab _ ih =>
    cases h' with
    | cons hbc h' =>
      exact .cons (hT _ _ _ List.mem_cons_self hab hbc)
        (ih h' fun a b c ha => hT a b c (List.mem_cons_of_mem _ ha))

/-- A list is answered when each of its members is, in order. -/
theorem mapM_eq_some {f : α → Option β} {l : List α} {l' : List β} :
    l.mapM f = some l' ↔ List.Forall₂ (fun a b => f a = some b) l l' := by
  induction l generalizing l' with
  | nil =>
    rw [List.mapM_nil, List.forall₂_nil_left_iff, Option.pure_def, Option.some.injEq, eq_comm]
  | cons a l ih =>
    rw [List.mapM_cons, List.forall₂_cons_left_iff]
    constructor
    · intro h
      obtain ⟨b, hb, h⟩ := Option.bind_eq_some_iff.1 h
      obtain ⟨bs, hbs, h⟩ := Option.bind_eq_some_iff.1 h
      exact ⟨b, bs, hb, ih.1 hbs, (Option.some.inj h).symm⟩
    · rintro ⟨b, bs, hb, hbs, rfl⟩
      exact Option.bind_eq_some_iff.2 ⟨b, hb, Option.bind_eq_some_iff.2 ⟨bs, ih.2 hbs, rfl⟩⟩

/-! ## Identifiers -/

theorem Expr.eq_ident_of_name? {e : Expr} {name : String} (h : e.name? = some name) :
    e = .ident name := by
  cases e <;> simp_all [name?]

namespace Event

/-- The visits of identifiers among events. -/
def identifiers (es : List Event) : List Visit := (visits es).filter (·.expr.name?.isSome)

@[simp] theorem identifiers_nil : identifiers [] = [] := rfl

@[simp] theorem identifiers_append (a b : List Event) :
    identifiers (a ++ b) = identifiers a ++ identifiers b := by
  simp [identifiers]

@[simp] theorem identifiers_cons_declare (d : Declared) (es : List Event) :
    identifiers (.declare d :: es) = identifiers es := rfl

theorem identifiers_cons_visit (v : Visit) (es : List Event) :
    identifiers (.visit v :: es) =
      if v.expr.name?.isSome then v :: identifiers es else identifiers es := by
  simp [identifiers, List.filter_cons]

theorem mem_identifiers {es : List Event} {v : Visit} (h : v ∈ identifiers es) : .visit v ∈ es :=
  mem_visits.1 (List.mem_filter.1 h).1

end Event

/-- The identifiers of a program as the walk visits them. -/
def Program.identifiers (p : Program) : List Visit := p.visits.filter (·.expr.name?.isSome)

theorem Program.identifiers_eq (p : Program) : p.identifiers = Event.identifiers p.walk := by
  rw [identifiers, visits_eq, Event.identifiers]

/-! ## Declarations matched -/

/-- Two declarations of one variable, in a program and in what became of it. -/
structure Declared.Matches (d d' : Declared) : Prop where
  name : d'.symbol.name = d.symbol.name
  type : d'.symbol.type = d.symbol.type
  depth : d'.symbol.depth = d.symbol.depth
  kind : d'.symbol.kind = d.symbol.kind
  isConst : d'.isConst = d.isConst
  redeclared : d'.redeclared = d.redeclared

theorem Declared.Matches.refl (d : Declared) : d.Matches d := ⟨rfl, rfl, rfl, rfl, rfl, rfl⟩

/-- Two symbols whose declarations are at the same place of two lists. -/
def Symbol.Matched (ds ds' : List Declared) (u u' : Symbol) : Prop :=
  ∃ (i : Nat) (d d' : Declared),
    ds[i]? = some d ∧ ds'[i]? = some d' ∧ d.symbol = u ∧ d'.symbol = u'

theorem Symbol.matched_of_forall₂ {ds ds' : List Declared} {move : Symbol → Symbol}
    (h : List.Forall₂ (fun d d' : Declared => d'.symbol = move d.symbol) ds ds') {d : Declared}
    (hd : d ∈ ds) :
    Matched ds ds' d.symbol (move d.symbol) := by
  induction h with
  | nil => cases hd
  | cons hab _ ih =>
    rcases List.mem_cons.1 hd with rfl | hd
    · exact ⟨0, _, _, rfl, rfl, rfl, hab⟩
    · obtain ⟨i, e, e', he, he', hs, hs'⟩ := ih hd
      exact ⟨i + 1, e, e', he, he', hs, hs'⟩

end ShaderMorph
