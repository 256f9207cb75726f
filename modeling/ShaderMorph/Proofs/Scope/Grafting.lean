-- One symbol more in a scope. The new symbol takes the id of the one that it
-- goes under, and that one and all newer ones get the next id. A scope
-- without that one stays as it is. What every name then stands for is told
-- from what it stood for before.
import ShaderMorph.Proofs.Scope.Chain

namespace ShaderMorph

namespace Symbol

/-- The id of a symbol once `new` has taken its own. -/
def moveId (new : Symbol) (id : Nat) : Nat := if id < new.id then id else id + 1

/-- A symbol once `new` has taken its id. -/
def renumber (new s : Symbol) : Symbol := { s with id := new.moveId s.id }

theorem moveId_ne (new : Symbol) (id : Nat) : new.moveId id ≠ new.id := by
  unfold moveId
  split <;> omega

theorem moveId_inj {new : Symbol} {i j : Nat} (h : new.moveId i = new.moveId j) : i = j := by
  unfold moveId at h
  split at h <;> split at h <;> omega

theorem renumber_inj {new s u : Symbol} (h : new.renumber s = new.renumber u) : s = u := by
  obtain ⟨name, id, type, depth, kind⟩ := s
  obtain ⟨name', id', type', depth', kind'⟩ := u
  simp only [renumber, Symbol.mk.injEq] at h
  obtain ⟨rfl, hid, rfl, rfl, rfl⟩ := h
  rw [moveId_inj hid]

theorem moveId_of_lt {new : Symbol} {id : Nat} (h : id < new.id) : new.moveId id = id := if_pos h

theorem renumber_of_lt {new s : Symbol} (h : s.id < new.id) : new.renumber s = s := by
  simp [renumber, moveId_of_lt h]

@[simp] theorem name_renumber (new s : Symbol) : (new.renumber s).name = s.name := rfl

@[simp] theorem depth_renumber (new s : Symbol) : (new.renumber s).depth = s.depth := rfl

@[simp] theorem type_renumber (new s : Symbol) : (new.renumber s).type = s.type := rfl

@[simp] theorem kind_renumber (new s : Symbol) : (new.renumber s).kind = s.kind := rfl

@[simp] theorem id_renumber (new s : Symbol) : (new.renumber s).id = new.moveId s.id := rfl

end Symbol

/-! ## Chains -/

namespace ScopeEntry

/-- A chain with a symbol put under the one whose id it takes. -/
def graft (new : Symbol) : List ScopeEntry → List ScopeEntry
  | [] => []
  | .frame :: es => .frame :: graft new es
  | .binding s :: es =>
    .binding (new.renumber s) ::
      (if s.id = new.id then .binding new :: graft new es else graft new es)

theorem graft_of_lt {new : Symbol} {es : List ScopeEntry} (h : ∀ s ∈ symbols es, s.id < new.id) :
    graft new es = es := by
  induction es with
  | nil => rfl
  | cons x es ih =>
    cases x with
    | frame => rw [graft, ih h]
    | binding s =>
      obtain ⟨hs, h⟩ := List.forall_mem_cons.1 h
      rw [graft, if_neg (Nat.ne_of_lt hs), ih h, Symbol.renumber_of_lt hs]

theorem mem_symbols_graft {new u : Symbol} {es : List ScopeEntry} :
    u ∈ symbols (graft new es) ↔
      (∃ s ∈ symbols es, new.renumber s = u) ∨ (u = new ∧ ∃ s ∈ symbols es, s.id = new.id) := by
  induction es with
  | nil => simp [graft]
  | cons x es ih =>
    cases x with
    | frame => simp only [graft, symbols_frame, ih]
    | binding s =>
      by_cases hs : s.id = new.id
      · simp only [graft, hs, if_true, symbols_binding, List.mem_cons, ih]
        constructor
        · rintro (rfl | rfl | ⟨t, ht, rfl⟩ | ⟨rfl, t, ht, hid⟩)
          · exact Or.inl ⟨s, Or.inl rfl, rfl⟩
          · exact Or.inr ⟨rfl, s, Or.inl rfl, hs⟩
          · exact Or.inl ⟨t, Or.inr ht, rfl⟩
          · exact Or.inr ⟨rfl, t, Or.inr ht, hid⟩
        · rintro (⟨t, rfl | ht, rfl⟩ | ⟨rfl, -⟩)
          · exact Or.inl rfl
          · exact Or.inr (Or.inr (Or.inl ⟨t, ht, rfl⟩))
          · exact Or.inr (Or.inl rfl)
      · simp only [graft, hs, if_false, symbols_binding, List.mem_cons, ih, exists_eq_or_imp,
          false_or, eq_comm (a := u) (b := new.renumber s), or_assoc]

/-- In a chain with falling ids the new symbol is found exactly when it is
there and nothing newer has its name. -/
theorem lookupIn_graft (new : Symbol) {es : List ScopeEntry}
    (h : (symbols es).Pairwise fun newer older => older.id < newer.id) (name : String) :
    ScopeTree.lookupIn name (graft new es) =
      if new.name = name ∧ (∃ s ∈ symbols es, s.id = new.id) ∧
          ∀ s, ScopeTree.lookupIn name es = some s → s.id < new.id then some new
      else (ScopeTree.lookupIn name es).map new.renumber := by
  induction es with
  | nil => simp [graft, ScopeTree.lookupIn]
  | cons x es ih =>
    cases x with
    | frame => exact ih h
    | binding s =>
      obtain ⟨hlt, h⟩ := List.pairwise_cons.1 h
      by_cases hn : s.name = name
      · have hc : ¬(new.name = name ∧ (∃ u ∈ symbols (.binding s :: es), u.id = new.id) ∧
            ∀ u, ScopeTree.lookupIn name (.binding s :: es) = some u → u.id < new.id) := by
          rintro ⟨-, ⟨u, hu, hid⟩, hall⟩
          have hs : s.id < new.id := hall s (by simp [ScopeTree.lookupIn, hn])
          rcases List.mem_cons.1 hu with rfl | hu
          · omega
          · have := hlt u hu
            omega
        rw [if_neg hc]
        simp [graft, ScopeTree.lookupIn, hn]
      · by_cases hid : s.id = new.id
        · have hall : ∀ u ∈ symbols es, u.id < new.id := hid ▸ hlt
          have hrest : ScopeTree.lookupIn name es =
              (ScopeTree.lookupIn name es).map new.renumber := by
            cases hl : ScopeTree.lookupIn name es with
            | none => rfl
            | some u =>
              rw [Option.map_some, Symbol.renumber_of_lt (hall u (ScopeTree.lookupIn_mem hl).1)]
          have hfound : ∀ u, ScopeTree.lookupIn name es = some u → u.id < new.id :=
            fun u hu => hall u (ScopeTree.lookupIn_mem hu).1
          simp only [graft, hid, if_true, graft_of_lt hall, ScopeTree.lookupIn,
            Symbol.name_renumber, hn, if_false, symbols_binding, List.mem_cons, exists_eq_or_imp,
            true_or, true_and]
          by_cases hnew : new.name = name
          · rw [if_pos hnew, if_pos ⟨hnew, hfound⟩]
          · rw [if_neg hnew, if_neg fun hc => hnew hc.1]
            exact hrest
        · simp only [graft, hid, if_false, ScopeTree.lookupIn, Symbol.name_renumber, hn, ih h,
            symbols_binding, List.mem_cons, exists_eq_or_imp, false_or]

end ScopeEntry

/-! ## Scopes -/

namespace ScopeTree

/-- A scope with a symbol put under the one whose id it takes. -/
def graft (new : Symbol) (t : ScopeTree) : ScopeTree := ⟨ScopeEntry.graft new t.entries, t.depth⟩

theorem graft_of_lt {new : Symbol} {t : ScopeTree} (h : ∀ s ∈ t.symbols, s.id < new.id) :
    t.graft new = t := by
  simp only [graft, ScopeEntry.graft_of_lt h]

/-- Binding a symbol with another id, in a scope with the new one. -/
theorem graft_shadow {new s : Symbol} (h : s.id ≠ new.id) (t : ScopeTree) :
    (t.shadow s).graft new = (t.graft new).shadow (new.renumber s) := by
  simp only [graft, shadow, ScopeEntry.graft, h, if_false]
  rfl

/-- Binding the symbol that the new one goes under. -/
theorem graft_shadow_self {new s : Symbol} {t : ScopeTree} (h : s.id = new.id)
    (hd : new.depth = t.depth) (ht : ∀ u ∈ t.symbols, u.id < new.id) :
    (t.shadow s).graft new = (t.shadow new).shadow (new.renumber s) := by
  have hn : ({ new with depth := t.depth } : Symbol) = new := by rw [← hd]
  have he : ScopeEntry.graft new t.entries = t.entries := ScopeEntry.graft_of_lt ht
  simp only [graft, shadow, ScopeEntry.graft, if_pos h, he, hn]
  rfl

/-- What a scope `t'` has to do with `t` when it has one symbol more, or, when
`has` is false, the same ones. -/
structure Grafted (new : Symbol) (has : Prop) (t t' : ScopeTree) : Prop where
  depth : t'.depth = t.depth
  caught : has → (∀ s, t.lookup new.name = some s → s.id < new.id) →
    t'.lookup new.name = some new
  kept : ∀ name, ¬(has ∧ new.name = name ∧ ∀ s, t.lookup name = some s → s.id < new.id) →
    t'.lookup name = (t.lookup name).map new.renumber
  binds : ∀ id, t'.binds (new.moveId id) = t.binds id
  gained : t'.binds new.id = true ↔ has

variable {new : Symbol} {t : ScopeTree}

theorem grafted_graft (new : Symbol) (h : t.WellFormed) :
    Grafted new (t.binds new.id = true) t (t.graft new) where
  depth := rfl
  caught hb hs := by
    have hc := ScopeEntry.lookupIn_graft new h.decreasing new.name
    rw [if_pos ⟨rfl, binds_iff.1 hb, hs⟩] at hc
    exact hc
  kept name hn := by
    have hc := ScopeEntry.lookupIn_graft new h.decreasing name
    rw [if_neg fun hall => hn ⟨binds_iff.2 hall.2.1, hall.1, hall.2.2⟩] at hc
    exact hc
  binds id := by
    rw [Bool.eq_iff_iff, binds_iff, binds_iff]
    constructor
    · rintro ⟨u, hu, hid⟩
      rcases ScopeEntry.mem_symbols_graft.1 hu with ⟨s, hs, rfl⟩ | ⟨rfl, -⟩
      · exact ⟨s, hs, Symbol.moveId_inj hid⟩
      · exact absurd hid.symm (Symbol.moveId_ne _ id)
    · rintro ⟨s, hs, rfl⟩
      exact ⟨new.renumber s, ScopeEntry.mem_symbols_graft.2 (Or.inl ⟨s, hs, rfl⟩), rfl⟩
  gained := by
    rw [binds_iff, binds_iff]
    constructor
    · rintro ⟨u, hu, hid⟩
      rcases ScopeEntry.mem_symbols_graft.1 hu with ⟨s, -, rfl⟩ | ⟨-, hs⟩
      · exact absurd hid (Symbol.moveId_ne _ _)
      · exact hs
    · exact fun hs => ⟨new, ScopeEntry.mem_symbols_graft.2 (Or.inr ⟨rfl, hs⟩), rfl⟩

/-- A scope from before the new symbol. -/
theorem grafted_self (h : ∀ s ∈ t.symbols, s.id < new.id) : Grafted new False t t where
  depth := rfl
  caught hf := hf.elim
  kept name _ := by
    cases hl : t.lookup name with
    | none => rfl
    | some s => rw [Option.map_some, Symbol.renumber_of_lt (h s (lookup_mem hl).1)]
  binds id := by
    rw [Bool.eq_iff_iff, binds_iff, binds_iff]
    refine exists_congr fun s => and_congr_right fun hs => ?_
    have hlt := h s hs
    unfold Symbol.moveId
    split <;> omega
  gained := by
    refine iff_false_intro fun hb => ?_
    obtain ⟨s, hs, hid⟩ := binds_iff.1 hb
    exact Nat.ne_of_lt (h s hs) hid

/-- A scope in which the new symbol was just bound. -/
theorem grafted_shadow (h : ∀ s ∈ t.symbols, s.id < new.id) (hd : new.depth = t.depth) :
    Grafted new True t (t.shadow new) := by
  have hn : ({ new with depth := t.depth } : Symbol) = new := by rw [← hd]
  have hself := grafted_self h
  constructor
  · rfl
  · intro _ _
    simp [lookup, shadow, lookupIn, hn]
  · intro name hc
    have hne : new.name ≠ name := fun he =>
      hc ⟨trivial, he, fun s hs => h s (lookup_mem hs).1⟩
    rw [← hself.kept name fun hf => hf.1]
    simp [lookup, shadow, lookupIn, hne]
  · intro id
    have hne : new.id ≠ new.moveId id := (Symbol.moveId_ne new id).symm
    have hb : (t.shadow new).binds (new.moveId id) =
        (new.id == new.moveId id || t.binds (new.moveId id)) := rfl
    rw [hb, hself.binds, beq_eq_false_iff_ne.2 hne, Bool.false_or]
  · exact iff_true_intro (binds_iff.2 ⟨_, List.mem_cons_self, rfl⟩)

/-- In a well-formed scope, what the innermost frame declares is what the
name stands for, when that has the depth of the scope. -/
theorem WellFormed.lookupInCurrentFrame_eq (h : t.WellFormed) (name : String) :
    t.lookupInCurrentFrame name = (t.lookup name).filter (·.depth == t.depth) := by
  cases hf : t.lookupInCurrentFrame name with
  | some s =>
    obtain ⟨hl, hd⟩ := h.lookup_of_frame hf
    simp [hl, hd, Option.filter]
  | none =>
    cases hl : t.lookup name with
    | none => rfl
    | some s =>
      by_cases hd : s.depth = t.depth
      · have := lookupInFrame_of_depth h.framed hl hd
        rw [lookupInCurrentFrame, this] at hf
        cases hf
      · simp [hd, Option.filter]

/-- Where a name means the same, so does it in the innermost frame. -/
theorem Grafted.lookupInCurrentFrame_eq {has : Prop} {t' : ScopeTree} (g : Grafted new has t t')
    (ht : t.WellFormed) (ht' : t'.WellFormed) {name : String}
    (hl : t'.lookup name = (t.lookup name).map new.renumber) :
    t'.lookupInCurrentFrame name = (t.lookupInCurrentFrame name).map new.renumber := by
  rw [ht.lookupInCurrentFrame_eq, ht'.lookupInCurrentFrame_eq, hl, g.depth]
  cases t.lookup name with
  | none => rfl
  | some s => by_cases hd : s.depth = t.depth <;> simp [Option.filter, hd]

theorem Grafted.frame_eq {has : Prop} {t' : ScopeTree} (g : Grafted new has t t')
    (ht : t.WellFormed) (ht' : t'.WellFormed) {name : String}
    (hl : t'.lookup name = (t.lookup name).map new.renumber) :
    (t'.lookupInCurrentFrame name).isSome = (t.lookupInCurrentFrame name).isSome := by
  rw [g.lookupInCurrentFrame_eq ht ht' hl, Option.isSome_map]

end ScopeTree

end ShaderMorph
