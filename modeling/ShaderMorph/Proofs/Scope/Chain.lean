-- Well-formed scopes: every binding has the depth of the frame it stands in,
-- and newer bindings have larger ids. What a name stands for can then be told
-- from where in the chain its newest binding is, and back.
import Mathlib.Data.List.Nodup
import ShaderMorph.Scope.Tree

namespace ShaderMorph

namespace ScopeEntry

def symbol? : ScopeEntry → Option Symbol
  | .frame => none
  | .binding s => some s

/-- The symbols bound in a chain, newest first. -/
def symbols (es : List ScopeEntry) : List Symbol := es.filterMap symbol?

@[simp] theorem symbols_nil : symbols [] = [] := rfl

@[simp] theorem symbols_frame (es : List ScopeEntry) : symbols (.frame :: es) = symbols es := rfl

@[simp] theorem symbols_binding (s : Symbol) (es : List ScopeEntry) :
    symbols (.binding s :: es) = s :: symbols es := rfl

@[simp] theorem symbols_append (a b : List ScopeEntry) :
    symbols (a ++ b) = symbols a ++ symbols b := List.filterMap_append

/-- There are `depth` frames in a chain, and each binding has the number of
frames that are open where it stands. -/
def Framed : (es : List ScopeEntry) → (depth : Nat) → Prop
  | [], depth => depth = 0
  | .frame :: es, depth => ∃ d, depth = d + 1 ∧ Framed es d
  | .binding s :: es, depth => s.depth = depth ∧ Framed es depth

/-- The symbols of the innermost frame of a chain, newest first. -/
def innermost : List ScopeEntry → List Symbol
  | [] => []
  | .frame :: _ => []
  | .binding s :: es => s :: innermost es

theorem innermost_subset (es : List ScopeEntry) : innermost es ⊆ symbols es := by
  induction es with
  | nil => exact List.Subset.refl _
  | cons x es ih =>
    cases x with
    | frame => exact List.nil_subset _
    | binding s => exact List.cons_subset_cons s ih

namespace Framed

theorem innermost_depth {es : List ScopeEntry} {d : Nat} (h : Framed es d) :
    ∀ s ∈ innermost es, s.depth = d := by
  induction es generalizing d with
  | nil => simp [innermost]
  | cons x es ih =>
    cases x with
    | frame => simp [innermost]
    | binding s => exact List.forall_mem_cons.2 ⟨h.1, ih h.2⟩

/-- A chain has one depth only. -/
theorem unique {es : List ScopeEntry} {d e : Nat} (h : Framed es d) (h' : Framed es e) :
    d = e := by
  induction es generalizing d e with
  | nil => exact h.trans h'.symm
  | cons x es ih =>
    cases x with
    | frame =>
      obtain ⟨d₀, rfl, h⟩ := h
      obtain ⟨e₀, rfl, h'⟩ := h'
      rw [ih h h']
    | binding s => exact ih h.2 h'.2

theorem depth_le {es : List ScopeEntry} {d : Nat} (h : Framed es d) :
    ∀ s ∈ symbols es, s.depth ≤ d := by
  induction es generalizing d with
  | nil => simp
  | cons x es ih =>
    cases x with
    | frame =>
      obtain ⟨d₀, rfl, h⟩ := h
      exact fun s hs => Nat.le_succ_of_le (ih h s hs)
    | binding t =>
      intro s hs
      rcases List.mem_cons.1 hs with rfl | hs
      · exact Nat.le_of_eq h.1
      · exact ih h.2 s hs

/-- The older part of a chain is no deeper than anything on top of it. -/
theorem append {a b : List ScopeEntry} {d : Nat} (h : Framed (a ++ b) d) :
    ∃ e, Framed b e ∧ e ≤ d ∧ ∀ s ∈ symbols a, e ≤ s.depth := by
  induction a generalizing d with
  | nil => exact ⟨d, h, Nat.le_refl d, by simp⟩
  | cons x a ih =>
    cases x with
    | frame =>
      obtain ⟨d₀, rfl, h⟩ := h
      obtain ⟨e, hb, hle, hs⟩ := ih h
      exact ⟨e, hb, Nat.le_succ_of_le hle, hs⟩
    | binding t =>
      obtain ⟨e, hb, hle, hs⟩ := ih h.2
      refine ⟨e, hb, hle, ?_⟩
      intro s hs'
      rcases List.mem_cons.1 hs' with rfl | hs'
      · rw [h.1]; exact hle
      · exact hs s hs'

end Framed

end ScopeEntry

namespace ScopeTree

open ScopeEntry

/-! ## Looking up in a chain -/

theorem lookupIn_mem {name : String} {es : List ScopeEntry} {s : Symbol}
    (h : lookupIn name es = some s) : s ∈ symbols es ∧ s.name = name := by
  induction es with
  | nil => cases h
  | cons x es ih =>
    cases x with
    | frame => exact ih h
    | binding t =>
      simp only [lookupIn] at h
      split at h
      · cases h; simp_all
      · exact ⟨List.mem_cons_of_mem _ (ih h).1, (ih h).2⟩

theorem lookupIn_eq_none {name : String} {es : List ScopeEntry} :
    lookupIn name es = none ↔ ∀ s ∈ symbols es, s.name ≠ name := by
  induction es with
  | nil => simp [lookupIn]
  | cons x es ih =>
    cases x with
    | frame => simp [lookupIn, ih]
    | binding t => by_cases ht : t.name = name <;> simp [lookupIn, ih, ht]

/-- The newer part of a chain is looked through first. -/
theorem lookupIn_append (name : String) (a b : List ScopeEntry) :
    lookupIn name (a ++ b) = (lookupIn name a).or (lookupIn name b) := by
  induction a with
  | nil => rfl
  | cons x a ih =>
    cases x with
    | frame => simpa [lookupIn] using ih
    | binding t => by_cases ht : t.name = name <;> simp [lookupIn, ih, ht]

theorem lookupInFrame_append {name : String} {a : List ScopeEntry} (b : List ScopeEntry)
    (h : .frame ∉ a) :
    lookupInFrame name (a ++ b) = (lookupIn name a).or (lookupInFrame name b) := by
  induction a with
  | nil => rfl
  | cons x a ih =>
    cases x with
    | frame => simp at h
    | binding t =>
      have h : .frame ∉ a := by simpa using h
      by_cases ht : t.name = name <;> simp [lookupInFrame, lookupIn, ih h, ht]

/-- Only the innermost frame is looked through. -/
theorem lookupInFrame_eq_find? (name : String) (es : List ScopeEntry) :
    lookupInFrame name es = (innermost es).find? (·.name = name) := by
  induction es with
  | nil => rfl
  | cons x es ih =>
    cases x with
    | frame => rfl
    | binding t => by_cases ht : t.name = name <;> simp [lookupInFrame, innermost, ih, ht]

theorem lookupInFrame_eq_some {name : String} {es : List ScopeEntry} {s : Symbol} {d : Nat}
    (hf : Framed es d) (h : lookupInFrame name es = some s) :
    lookupIn name es = some s ∧ s.depth = d := by
  induction es generalizing d with
  | nil => cases h
  | cons x es ih =>
    cases x with
    | frame => cases h
    | binding t =>
      simp only [lookupInFrame, lookupIn] at h ⊢
      split at h
      · cases h; simp_all [hf.1]
      · simp_all [ih hf.2 h]

/-- A name that means something at the depth of the chain is declared in its
innermost frame. -/
theorem lookupInFrame_of_depth {name : String} {es : List ScopeEntry} {s : Symbol} {d : Nat}
    (hf : Framed es d) (h : lookupIn name es = some s) (hd : s.depth = d) :
    lookupInFrame name es = some s := by
  induction es generalizing d with
  | nil => cases h
  | cons x es ih =>
    cases x with
    | frame =>
      obtain ⟨e, rfl, hf⟩ := hf
      have := hf.depth_le s (lookupIn_mem h).1
      omega
    | binding t =>
      simp only [lookupInFrame, lookupIn] at h ⊢
      split at h
      · simp_all
      · simp_all [ih hf.2 h]

/-! ## Well-formed scopes -/

/-- The symbols bound in a scope, hidden ones included. -/
def symbols (t : ScopeTree) : List Symbol := ScopeEntry.symbols t.entries

structure WellFormed (t : ScopeTree) : Prop where
  framed : Framed t.entries t.depth
  decreasing : t.symbols.Pairwise fun newer older => older.id < newer.id

@[simp] theorem symbols_enter (t : ScopeTree) : t.enter.symbols = t.symbols := rfl

@[simp] theorem symbols_shadow (t : ScopeTree) (s : Symbol) :
    (t.shadow s).symbols = { s with depth := t.depth } :: t.symbols := rfl

@[simp] theorem symbols_empty : empty.symbols = [] := rfl

theorem wellFormed_empty : empty.WellFormed := ⟨rfl, .nil⟩

theorem WellFormed.enter {t : ScopeTree} (h : t.WellFormed) : t.enter.WellFormed :=
  ⟨⟨t.depth, rfl, h.framed⟩, h.decreasing⟩

theorem WellFormed.shadow {t : ScopeTree} (h : t.WellFormed) {s : Symbol}
    (hs : ∀ u ∈ t.symbols, u.id < s.id) : (t.shadow s).WellFormed :=
  ⟨⟨rfl, h.framed⟩, List.pairwise_cons.2 ⟨hs, h.decreasing⟩⟩

theorem binds_iff {t : ScopeTree} {id : Nat} : t.binds id = true ↔ ∃ s ∈ t.symbols, s.id = id := by
  obtain ⟨es, d⟩ := t
  simp only [binds, symbols]
  induction es with
  | nil => simp
  | cons x es ih => cases x <;> simp_all

theorem lookup_mem {t : ScopeTree} {name : String} {s : Symbol} (h : t.lookup name = some s) :
    s ∈ t.symbols ∧ s.name = name := lookupIn_mem h

theorem WellFormed.lookup_depth_le {t : ScopeTree} (h : t.WellFormed) {name : String} {s : Symbol}
    (hs : t.lookup name = some s) : s.depth ≤ t.depth :=
  h.framed.depth_le s (lookup_mem hs).1

/-- What the innermost frame declares is what the name stands for. -/
theorem WellFormed.lookup_of_frame {t : ScopeTree} (h : t.WellFormed) {name : String}
    {s : Symbol} (hs : t.lookupInCurrentFrame name = some s) :
    t.lookup name = some s ∧ s.depth = t.depth := lookupInFrame_eq_some h.framed hs

/-! ## Scopes built on others -/

/-- A scope is the base with something on top, all of it with ids from `n`
on. -/
def BuiltOn (base : ScopeTree) (n : Nat) (t : ScopeTree) : Prop :=
  ∃ above, t.entries = above ++ base.entries ∧ ∀ u ∈ ScopeEntry.symbols above, n ≤ u.id

/-- A scope is the base with bindings on top, all in its innermost frame. -/
def Stacked (base : ScopeTree) (n : Nat) (t : ScopeTree) : Prop :=
  ∃ us : List Symbol, t.entries = us.map .binding ++ base.entries ∧ t.depth = base.depth ∧
    ∀ u ∈ us, n ≤ u.id

theorem symbols_map_binding (us : List Symbol) : ScopeEntry.symbols (us.map .binding) = us := by
  induction us with
  | nil => rfl
  | cons u us ih => simp [ih]

namespace BuiltOn

variable {base t : ScopeTree} {n : Nat} {u : Symbol}

/-- What has a lower id is still told by the base. -/
theorem lookup (h : base.BuiltOn n t) {name : String} (hl : t.lookup name = some u)
    (hu : u.id < n) : base.lookup name = some u := by
  obtain ⟨above, he, hn⟩ := h
  rw [ScopeTree.lookup, he, lookupIn_append] at hl
  cases ha : lookupIn name above with
  | none =>
    rw [ha, Option.none_or] at hl
    exact hl
  | some w =>
    rw [ha, Option.some_or] at hl
    obtain rfl := Option.some.inj hl
    exact absurd (hn w (lookupIn_mem ha).1) (Nat.not_le.2 hu)

theorem depth_le (h : base.BuiltOn n t) (ht : t.WellFormed) (hb : base.WellFormed) :
    base.depth ≤ t.depth := by
  obtain ⟨above, he, -⟩ := h
  obtain ⟨e, hf, hle, -⟩ := (he ▸ ht.framed).append
  rwa [hb.framed.unique hf]

/-- What is on top is no less deep than the base. -/
theorem le_depth (h : base.BuiltOn n t) (ht : t.WellFormed) (hb : base.WellFormed)
    (hlt : ∀ w ∈ base.symbols, w.id < n) (hu : u ∈ t.symbols) (hn : n ≤ u.id) :
    base.depth ≤ u.depth := by
  obtain ⟨above, he, -⟩ := h
  obtain ⟨e, hf, -, hd⟩ := (he ▸ ht.framed).append
  rw [symbols, he, symbols_append, List.mem_append] at hu
  rcases hu with hu | hu
  · rw [hb.framed.unique hf]
    exact hd u hu
  · exact absurd (hlt u hu) (Nat.not_lt.2 hn)

end BuiltOn

namespace Stacked

variable {base t : ScopeTree} {n : Nat} {name : String}

theorem builtOn (h : base.Stacked n t) : base.BuiltOn n t := by
  obtain ⟨us, he, -, hn⟩ := h
  exact ⟨_, he, by rwa [symbols_map_binding]⟩

theorem lookupInFrame (h : base.Stacked n t) (name : String) :
    ∃ us : List Symbol, t.symbols = us ++ base.symbols ∧ (∀ u ∈ us, n ≤ u.id) ∧
      t.lookupInCurrentFrame name =
        (lookupIn name (us.map .binding)).or (base.lookupInCurrentFrame name) := by
  obtain ⟨us, he, -, hn⟩ := h
  refine ⟨us, ?_, hn, ?_⟩
  · rw [symbols, he, symbols_append, symbols_map_binding]
    rfl
  · rw [lookupInCurrentFrame, he, lookupInFrame_append _ (by simp)]
    rfl

/-- What the innermost frame of the base has is not lost. -/
theorem of_base (h : base.Stacked n t) (hb : (base.lookupInCurrentFrame name).isSome) :
    (t.lookupInCurrentFrame name).isSome := by
  obtain ⟨us, -, -, hl⟩ := h.lookupInFrame name
  rw [hl]
  simp [hb]

/-- Everything on top is in the innermost frame. -/
theorem of_mem (h : base.Stacked n t) (hlt : ∀ w ∈ base.symbols, w.id < n) {u : Symbol}
    (hu : u ∈ t.symbols) (hn : n ≤ u.id) : (t.lookupInCurrentFrame u.name).isSome := by
  obtain ⟨us, hs, -, hl⟩ := h.lookupInFrame u.name
  rw [hs, List.mem_append] at hu
  rcases hu with hu | hu
  · rw [hl]
    have hin : lookupIn u.name (us.map .binding) ≠ none := fun hnone =>
      lookupIn_eq_none.1 hnone u (by rwa [symbols_map_binding]) rfl
    simp [Option.isSome_iff_ne_none.2 hin]
  · exact absurd (hlt u hu) (Nat.not_lt.2 hn)

end Stacked

end ScopeTree

end ShaderMorph
