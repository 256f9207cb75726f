-- The walk over a program that got one more declaration. Up to the new one
-- it meets the same things in the same scopes. From there on every scope that
-- the new variable is bound in has one symbol more, and later declarations
-- have the next id.
import ShaderMorph.Proofs.Scope.Grafting
import ShaderMorph.Proofs.Walk.Locations

namespace ShaderMorph

/-! ## What is met -/

/-- What is met in one walk and in the other. `has` tells of a scope whether
it has the new symbol. -/
inductive Event.Moved (ρ : Relocation) (new : Symbol) (has : ScopeTree → Prop) :
    Event → Event → Prop
  | visit (v v' : Visit) : v'.expr = v.expr → v'.ordinal = v.ordinal →
    v.scope.Grafted new (has v.scope) v'.scope → Moved ρ new has (.visit v) (.visit v')
  | declare (d d' : Declared) : d'.symbol = new.renumber d.symbol →
    d'.location = ρ.location d.location → d'.isConst = d.isConst →
    d.scope.Grafted new (has d.scope) d'.scope → Moved ρ new has (.declare d) (.declare d')

/-- The same expression, visited in one scope and in another. -/
def Visit.Alike (scope scope' : ScopeTree) (v v' : Visit) : Prop :=
  v'.expr = v.expr ∧ v'.ordinal = v.ordinal ∧ v.scope = scope ∧ v'.scope = scope'

namespace Expr

variable (heads : List Prototype) (scope scope' : ScopeTree)

mutual

theorem visits_alike : (e : Expr) → (around around' : Surroundings) → (parent : Option Nat) →
    (k : Nat) → List.Forall₂ (Visit.Alike scope scope') (e.visits heads scope around parent k)
      (e.visits heads scope' around' parent k)
  | .ident _, _, _, _, _ => .cons ⟨rfl, rfl, rfl, rfl⟩ .nil
  | .literal _, _, _, _, _ => .cons ⟨rfl, rfl, rfl, rfl⟩ .nil
  | .binary _ lhs rhs, _, _, _, _ => .cons ⟨rfl, rfl, rfl, rfl⟩
    (List.rel_append (visits_alike lhs _ _ _ _) (visits_alike rhs _ _ _ _))
  | .unary _ operand, _, _, _, _ => .cons ⟨rfl, rfl, rfl, rfl⟩ (visits_alike operand _ _ _ _)
  | .member base _, _, _, _, _ => .cons ⟨rfl, rfl, rfl, rfl⟩ (visits_alike base _ _ _ _)
  | .index base position, _, _, _, _ => .cons ⟨rfl, rfl, rfl, rfl⟩
    (List.rel_append (visits_alike base _ _ _ _) (visits_alike position _ _ _ _))
  | .call callee args, _, _, _, _ => .cons ⟨rfl, rfl, rfl, rfl⟩
    (visitsArgs_alike callee args.length args _ _ _ _ _)
  | .ternary cond thenExpr elseExpr, _, _, _, _ => .cons ⟨rfl, rfl, rfl, rfl⟩
    (List.rel_append
      (List.rel_append (visits_alike cond _ _ _ _) (visits_alike thenExpr _ _ _ _))
      (visits_alike elseExpr _ _ _ _))
  | .paren inner, _, _, _, _ => .cons ⟨rfl, rfl, rfl, rfl⟩ (visits_alike inner _ _ _ _)

theorem visitsArgs_alike (callee : String) (arity : Nat) : (es : List Expr) → (i : Nat) →
    (around around' : Surroundings) → (caller k : Nat) →
    List.Forall₂ (Visit.Alike scope scope')
      (visitsArgs heads scope callee arity es i around caller k)
      (visitsArgs heads scope' callee arity es i around' caller k)
  | [], _, _, _, _, _ => .nil
  | e :: es, _, _, _, _, _ =>
    List.rel_append (visits_alike e _ _ _ _) (visitsArgs_alike callee arity es _ _ _ _ _)

end

end Expr

section

variable {ρ : Relocation} {new : Symbol} {has : ScopeTree → Prop}

theorem Event.moved_visits {scope scope' : ScopeTree} (h : scope.Grafted new (has scope) scope')
    (heads : List Prototype) (e : Expr) (around around' : Surroundings) (k : Nat) :
    List.Forall₂ (Event.Moved ρ new has) ((e.visits heads scope around none k).map .visit)
      ((e.visits heads scope' around' none k).map .visit) := by
  rw [List.forall₂_map_left_iff, List.forall₂_map_right_iff]
  refine (e.visits_alike heads scope scope' around around' none k).imp fun v v' hv => ?_
  obtain ⟨he, hk, rfl, rfl⟩ := hv
  exact .visit v v' he hk h

theorem Declarator.moved_visits {s s' : WalkState} (heads : List Prototype)
    (h : s.scope.Grafted new (has s.scope) s'.scope) (hk : s'.ordinal = s.ordinal)
    (v : Declarator) :
    List.Forall₂ (Event.Moved ρ new has) ((v.visits heads s).map .visit)
      (((v.relocate ρ).visits heads s').map .visit) := by
  simp only [Declarator.visits, Declarator.relocate, hk]
  cases v.initializer with
  | none => exact .nil
  | some e => exact Event.moved_visits h heads e _ _ s.ordinal

theorem Declarator.moved_declared {s s' : WalkState}
    (h : s.scope.Grafted new (has s.scope) s'.scope) (hid : s'.id = new.moveId s.id)
    (v : Declarator) :
    Event.Moved ρ new has (.declare (v.declared s)) (.declare ((v.relocate ρ).declared s')) := by
  refine .declare _ _ ?_ rfl rfl h
  simp only [Declarator.declared, Declarator.symbol, Declarator.relocate, Symbol.renumber, hid,
    h.depth]

namespace Command

/-- One command, in two states that differ by the new symbol. -/
theorem moved_events {s t : WalkState} (heads : List Prototype)
    (h : s.scope.Grafted new (has s.scope) t.scope) (hk : t.ordinal = s.ordinal) (c : Command)
    (hid : ∀ v, c = .declare v → t.id = new.moveId s.id) :
    List.Forall₂ (Event.Moved ρ new has) (c.events heads s) ((c.relocate ρ).events heads t) := by
  cases c with
  | expr around e =>
    simp only [events, relocate, hk]
    exact Event.moved_visits h heads e around (ρ.around around) s.ordinal
  | declare v =>
    exact List.rel_append (v.moved_visits heads h hk) (.cons (v.moved_declared h (hid v rfl)) .nil)
  | enter o => exact .nil
  | leave => exact .nil

/-! ## Before the new declaration -/

theorem next_relocate (s : WalkState) (c : Command) : (c.relocate ρ).next s = c.next s := by
  cases c <;> rfl

theorem final_relocate (cs : List Command) (s : WalkState) :
    final (cs.map (.relocate ρ)) s = final cs s := by
  induction cs generalizing s with
  | nil => rfl
  | cons c cs ih => rw [List.map_cons, final_cons, final_cons, next_relocate, ih]

theorem id_le_final (cs : List Command) (s : WalkState) : s.id ≤ (final cs s).id := by
  rw [id_final]
  exact Nat.le_add_right _ _

theorem moved_run_before {ds : List Declared} {s : WalkState} (heads : List Prototype)
    (hs : s.Sound ds) (cs : List Command) (hle : (final cs s).id ≤ new.id) :
    List.Forall₂ (Event.Moved ρ new fun _ => False) (run heads cs s)
      (run heads (cs.map (.relocate ρ)) s) := by
  induction cs generalizing ds s with
  | nil => exact .nil
  | cons c cs ih =>
    rw [final_cons] at hle
    have hnext : (c.next s).id ≤ new.id := Nat.le_trans (id_le_final cs _) hle
    rw [List.map_cons, run, run, next_relocate]
    refine List.rel_append ?_ (ih (hs.next heads c) hle)
    have hcur : s.id ≤ new.id := by
      rw [id_next] at hnext
      omega
    refine moved_events heads (ScopeTree.grafted_self fun u hu => ?_) rfl c ?_
    · exact Nat.lt_of_lt_of_le (hs.symbol_id_lt (WalkState.Sound.scope_mem s) hu) hcur
    · rintro v rfl
      exact (Symbol.moveId_of_lt hnext).symm

/-! ## Behind the group of the new declaration -/

end Command

/-- A state once `new` is declared. -/
def WalkState.graft (new : Symbol) (s : WalkState) : WalkState :=
  ⟨s.scope.graft new, s.kept.map (·.graft new), s.ordinal, new.moveId s.id⟩

namespace Command

theorem next_graft {s : WalkState} (h : new.id < s.id) (c : Command) :
    (c.relocate ρ).next (s.graft new) = (c.next s).graft new := by
  cases c with
  | expr around e => rfl
  | enter o => cases o <;> rfl
  | leave =>
    obtain ⟨scope, kept, ordinal, id⟩ := s
    cases kept <;> rfl
  | declare v =>
    have hid : new.moveId (s.id + 1) = new.moveId s.id + 1 := by
      unfold Symbol.moveId
      split <;> split <;> omega
    have hne : (v.symbol s).id ≠ new.id := Nat.ne_of_gt h
    simp only [next, relocate, WalkState.graft, ScopeTree.graft_shadow hne, hid]
    rfl

theorem moved_run_after {ds : List Declared} {s : WalkState} (heads : List Prototype)
    (hs : s.Sound ds) (h : new.id < s.id) (cs : List Command) :
    List.Forall₂ (Event.Moved ρ new fun t => t.binds new.id = true) (run heads cs s)
      (run heads (cs.map (.relocate ρ)) (s.graft new)) := by
  induction cs generalizing ds s with
  | nil => exact .nil
  | cons c cs ih =>
    rw [List.map_cons, run, run, next_graft h]
    have hnext : new.id < (c.next s).id := by
      rw [id_next]
      omega
    refine List.rel_append ?_ (ih (hs.next heads c) hnext)
    exact moved_events (s := s) (t := s.graft new) heads
      (ScopeTree.grafted_graft new (hs.wellFormed _ (WalkState.Sound.scope_mem s))) rfl c
      fun _ _ => rfl

end Command

/-! ## In the group of the new declaration -/

/-- The states between the new declaration and the end of the group behind it,
in one walk and in the other. Nothing but members of the group was declared
since the state `base` before the new declaration. -/
structure Opened (new : Symbol) (base s s' : WalkState) : Prop where
  kept : s.kept = base.kept
  kept' : s'.kept = base.kept
  ordinal : s'.ordinal = s.ordinal
  id_le : new.id ≤ s.id
  id : s'.id = s.id + 1
  scope' : s.id = new.id ∧ s.scope = base.scope ∧ s'.scope = base.scope.shadow new ∨
    new.id < s.id ∧ s.scope.binds new.id = true ∧ s'.scope = s.scope.graft new

namespace Opened

variable {base s s' : WalkState} {ds : List Declared}

/-- Right at the new declaration. -/
theorem start (hid : base.id = new.id) {v : Declarator} (hv : v.symbol base = new)
    (hi : v.initializer = none) :
    Opened new base base ((Command.declare v).next base) where
  kept := rfl
  kept' := rfl
  ordinal := by simp only [Command.next, hi, Expr.sizeOption, Nat.add_zero]
  id_le := Nat.le_of_eq hid.symm
  id := rfl
  scope' := by
    refine Or.inl ⟨hid, rfl, ?_⟩
    rw [← hv]
    rfl

theorem grafted (h : Opened new base s s') (hbase : base.Sound ds) (hid : base.id = new.id)
    (hdepth : new.depth = base.scope.depth) {ds' : List Declared} (hs : s.Sound ds') :
    s.scope.Grafted new True s'.scope := by
  rcases h.scope' with ⟨-, hscope, hscope'⟩ | ⟨-, hbinds, hscope'⟩
  · rw [hscope, hscope']
    refine ScopeTree.grafted_shadow (fun u hu => ?_) hdepth
    exact hid ▸ hbase.symbol_id_lt (WalkState.Sound.scope_mem base) hu
  · rw [hscope']
    have hg := ScopeTree.grafted_graft new (hs.wellFormed _ (WalkState.Sound.scope_mem s))
    rwa [hbinds, eq_self] at hg

/-- One more member is bound on top. -/
theorem next (h : Opened new base s s') (hbase : base.Sound ds) (hid : base.id = new.id)
    (hdepth : new.depth = base.scope.depth) (v : Declarator) :
    Opened new base ((Command.declare v).next s) ((Command.declare (v.relocate ρ)).next s') := by
  have hd' : s'.scope.depth = s.scope.depth := by
    rcases h.scope' with ⟨-, hscope, hscope'⟩ | ⟨-, -, hscope'⟩
    · rw [hscope, hscope']
      rfl
    · rw [hscope']
      rfl
  have hsym : (v.relocate ρ).symbol s' = new.renumber (v.symbol s) := by
    have hmove : new.moveId s.id = s.id + 1 := if_neg (Nat.not_lt.2 h.id_le)
    simp only [Declarator.symbol, Declarator.relocate, Symbol.renumber, h.id, hd', hmove]
  constructor
  · exact h.kept
  · exact h.kept'
  · simp only [Command.next, Declarator.relocate, h.ordinal]
  · exact Nat.le_succ_of_le h.id_le
  · simp only [Command.next, h.id]
  · refine Or.inr ⟨Nat.lt_succ_of_le h.id_le, ?_, ?_⟩
    · rcases h.scope' with ⟨he, -, -⟩ | ⟨-, hb, -⟩
      · exact ScopeTree.binds_iff.2 ⟨v.symbol s, List.mem_cons_self, he⟩
      · obtain ⟨u, hu, hui⟩ := ScopeTree.binds_iff.1 hb
        exact ScopeTree.binds_iff.2 ⟨u, List.mem_cons_of_mem _ hu, hui⟩
    · simp only [Command.next, hsym]
      rcases h.scope' with ⟨he, hscope, hscope'⟩ | ⟨hlt, -, hscope'⟩
      · rw [hscope', hscope]
        refine (ScopeTree.graft_shadow_self he hdepth fun u hu => ?_).symm
        exact hid ▸ hbase.symbol_id_lt (WalkState.Sound.scope_mem base) hu
      · rw [hscope', ScopeTree.graft_shadow (Nat.ne_of_gt hlt)]

/-- Behind at least one member, the two states differ by the new symbol. -/
theorem eq_graft (h : Opened new base s s') (hbase : base.Sound ds) (hid : base.id = new.id)
    (hlt : new.id < s.id) : s' = s.graft new := by
  have hkept : s.kept.map (·.graft new) = s.kept := by
    rw [h.kept]
    refine (List.map_congr_left fun t ht => ?_).trans (List.map_id _)
    exact ScopeTree.graft_of_lt fun u hu => hid ▸ hbase.symbol_id_lt (List.mem_cons_of_mem _ ht) hu
  have hmove : new.moveId s.id = s.id + 1 := if_neg (Nat.not_lt.2 h.id_le)
  rcases h.scope' with ⟨he, -, -⟩ | ⟨-, -, hscope'⟩
  · omega
  · obtain ⟨scope', kept', ordinal', id'⟩ := s'
    have h1 := h.kept'
    have h2 := h.ordinal
    have h3 := h.id
    dsimp only at hscope' h1 h2 h3
    rw [WalkState.graft, hkept, hmove, hscope', h1, h2, h3, h.kept]

end Opened

end

end ShaderMorph
