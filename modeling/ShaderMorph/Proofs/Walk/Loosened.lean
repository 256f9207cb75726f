-- The walk over one list of declarations under two versions. The version says
-- whether the initializers of globals have to stay constant, and nothing else of
-- the walk goes by it. So under a version that asks for less, the walk meets the
-- same declarations and the same expressions in the same scopes, and less of what
-- it meets has to stay constant.
import ShaderMorph.Proofs.Walk.Matching

namespace ShaderMorph

/-! ## Versions -/

/-- Whatever `w` asks for, `v` asks for, and whatever `v` lets through, `w` does. -/
structure Version.Stricter (v w : Version) : Prop where
  loops : w.restrictsLoopBounds = true → v.restrictsLoopBounds = true
  globals : w.requiresConstGlobals = true → v.requiresConstGlobals = true
  swizzles : v.hasScalarSwizzles = true → w.hasScalarSwizzles = true

/-- Version 440 asks for nothing and knows everything. -/
theorem Version.stricter_glsl440 (v : Version) : v.Stricter .glsl440 where
  loops h := nomatch h
  globals h := nomatch h
  swizzles _ := rfl

/-! ## Surroundings -/

/-- The same surroundings, but for what has to stay constant: in `b` only what
has to in `a`. -/
structure Surroundings.Frees (a b : Surroundings) : Prop where
  same : { b with constContext := a.constContext } = a
  const : b.constContext = true → a.constContext = true

namespace Surroundings.Frees

variable {a b : Surroundings}

theorem refl (a : Surroundings) : a.Frees a := ⟨rfl, id⟩

theorem read (h : a.Frees b) : a.read.Frees b.read :=
  ⟨congrArg Surroundings.read h.same, h.const⟩

theorem written (h : a.Frees b) : a.written.Frees b.written :=
  ⟨congrArg Surroundings.written h.same, h.const⟩

/-- What a part of an expression takes over, written or read. -/
theorem ite (h : a.Frees b) (c : Prop) [Decidable c] :
    (if c then a.written else a.read).Frees (if c then b.written else b.read) := by
  split
  · exact h.written
  · exact h.read

/-- The surroundings of an initializer. -/
theorem initializer (h : a.Frees b) (isConst : Bool) (id : Nat) :
    Surroundings.Frees
      { a with constContext := a.constContext || isConst, initializerOf := some id }
      { b with constContext := b.constContext || isConst, initializerOf := some id } where
  same := congrArg (fun s : Surroundings =>
    { s with constContext := s.constContext || isConst, initializerOf := some id }) h.same
  const hb := by
    rw [Bool.or_eq_true] at hb ⊢
    exact hb.imp_left h.const

end Surroundings.Frees

/-! ## What is met -/

/-- An expression, visited in surroundings where less has to stay constant. -/
structure Visit.Freed (v w : Visit) : Prop where
  expr : w.expr = v.expr
  ordinal : w.ordinal = v.ordinal
  parent : w.parent = v.parent
  scope : w.scope = v.scope
  around : v.around.Frees w.around

/-- What a walk meets, and what it meets when less has to stay constant. -/
inductive Event.Freed : Event → Event → Prop
  | visit {v w : Visit} : v.Freed w → Freed (.visit v) (.visit w)
  | declare (d : Declared) : Freed (.declare d) (.declare d)

theorem Event.Freed.visits {es es' : List Event} (h : List.Forall₂ Event.Freed es es') :
    List.Forall₂ Visit.Freed (Event.visits es) (Event.visits es') := by
  induction h with
  | nil => exact .nil
  | cons he _ ih =>
    cases he with
    | visit hv => exact .cons hv ih
    | declare d => exact ih

namespace Expr

variable (heads : List Prototype) (scope : ScopeTree)

theorem freed_root {a b : Surroundings} (h : a.Frees b) (e : Expr) (parent : Option Nat)
    (k : Nat) : Visit.Freed ⟨e, k, parent, a, scope⟩ ⟨e, k, parent, b, scope⟩ :=
  ⟨rfl, rfl, rfl, rfl, h⟩

mutual

/-- An expression hands on to its parts what its surroundings are freed of. -/
theorem visits_freed : (e : Expr) → {a b : Surroundings} → a.Frees b → (parent : Option Nat) →
    (k : Nat) → List.Forall₂ Visit.Freed (e.visits heads scope a parent k)
      (e.visits heads scope b parent k)
  | .ident _, _, _, h, _, _ => .cons (freed_root scope h _ _ _) .nil
  | .literal _, _, _, h, _, _ => .cons (freed_root scope h _ _ _) .nil
  | .binary _ lhs rhs, _, _, h, _, _ => .cons (freed_root scope h _ _ _)
    (List.rel_append (visits_freed lhs (h.ite _) _ _) (visits_freed rhs h.read _ _))
  | .unary _ operand, _, _, h, _, _ => .cons (freed_root scope h _ _ _)
    (visits_freed operand (h.ite _) _ _)
  | .member base _, _, _, h, _, _ => .cons (freed_root scope h _ _ _) (visits_freed base h _ _)
  | .index base position, _, _, h, _, _ => .cons (freed_root scope h _ _ _)
    (List.rel_append (visits_freed base h _ _) (visits_freed position h.read _ _))
  | .call callee args, _, _, h, _, _ => .cons (freed_root scope h _ _ _)
    (visitsArgs_freed callee args.length args h _ _ _)
  | .ternary cond thenExpr elseExpr, _, _, h, _, _ => .cons (freed_root scope h _ _ _)
    (List.rel_append
      (List.rel_append (visits_freed cond h.read _ _) (visits_freed thenExpr h.read _ _))
      (visits_freed elseExpr h.read _ _))
  | .paren inner, _, _, h, _, _ => .cons (freed_root scope h _ _ _) (visits_freed inner h _ _)

theorem visitsArgs_freed (callee : String) (arity : Nat) : (es : List Expr) →
    {a b : Surroundings} → a.Frees b → (i caller k : Nat) →
    List.Forall₂ Visit.Freed (visitsArgs heads scope callee arity es i a caller k)
      (visitsArgs heads scope callee arity es i b caller k)
  | [], _, _, _, _, _, _ => .nil
  | e :: es, _, _, h, _, _, _ =>
    List.rel_append (visits_freed e (h.ite _) _ _) (visitsArgs_freed callee arity es h _ _ _)

end

end Expr

/-! ## Commands -/

/-- The same command, where less has to stay constant. -/
inductive Command.Frees : Command → Command → Prop
  | expr {a b : Surroundings} (e : Expr) : a.Frees b → Frees (.expr a e) (.expr b e)
  | declare (v : Declarator) {b : Surroundings} : v.around.Frees b →
    Frees (.declare v) (.declare { v with around := b })
  | enter (opensFrame : Bool) : Frees (.enter opensFrame) (.enter opensFrame)
  | leave : Frees .leave .leave

namespace Command.Frees

theorem refl (c : Command) : c.Frees c := by
  cases c with
  | expr around e => exact .expr e (.refl around)
  | declare v => exact .declare v (.refl v.around)
  | enter opensFrame => exact .enter opensFrame
  | leave => exact .leave

variable {c c' : Command} {cs cs' : List Command}

theorem events (h : c.Frees c') (heads : List Prototype) (s : WalkState) :
    List.Forall₂ Event.Freed (c.events heads s) (c'.events heads s) := by
  have hvisits : ∀ {vs ws : List Visit}, List.Forall₂ Visit.Freed vs ws →
      List.Forall₂ Event.Freed (vs.map .visit) (ws.map .visit) := by
    intro vs ws hvs
    rw [List.forall₂_map_left_iff, List.forall₂_map_right_iff]
    exact hvs.imp fun _ _ => .visit
  cases h with
  | expr e h => exact hvisits (e.visits_freed heads s.scope h none s.ordinal)
  | @declare v b h =>
    refine List.rel_append (hvisits ?_) (.cons (.declare _) .nil)
    cases hi : v.initializer with
    | none => simp [Declarator.visits, Expr.visitsOption, hi]
    | some e =>
      simp only [Declarator.visits, Expr.visitsOption, hi]
      exact e.visits_freed heads s.scope (h.initializer v.isConst s.id) none s.ordinal
  | enter opensFrame => exact .nil
  | leave => exact .nil

/-- Nothing that a command is told about its surroundings goes into the state. -/
theorem next (h : c.Frees c') (s : WalkState) : c'.next s = c.next s := by
  cases h <;> rfl

theorem run (h : List.Forall₂ Command.Frees cs cs') (heads : List Prototype) (s : WalkState) :
    List.Forall₂ Event.Freed (Command.run heads cs s) (Command.run heads cs' s) := by
  induction h generalizing s with
  | nil => exact .nil
  | cons hc _ ih =>
    rw [Command.run, Command.run, hc.next]
    exact List.rel_append (hc.events heads s) (ih _)

end Command.Frees

/-! ## Scripts -/

theorem VariableGroup.script_frees {a b : Surroundings} (h : a.Frees b) (kind : SymbolKind)
    (locate : Nat → DeclLocation) (g : VariableGroup) :
    List.Forall₂ Command.Frees (g.script a kind locate) (g.script b kind locate) := by
  have hmembers : ∀ (vs : List Variable) (member : Nat), List.Forall₂ Command.Frees
      (g.scriptMembers a kind locate member vs) (g.scriptMembers b kind locate member vs) := by
    intro vs
    induction vs with
    | nil => exact fun _ => .nil
    | cons v vs ih =>
      exact fun member => .cons (.declare (g.declarator a kind locate member v) h) (ih _)
  exact hmembers g.members 0

theorem Declaration.script_frees {v w : Version} (h : v.Stricter w) (index : Nat)
    (d : Declaration) : List.Forall₂ Command.Frees (d.script v index) (d.script w index) := by
  cases d with
  | «variables» group => exact group.script_frees ⟨rfl, h.globals⟩ .global (.global index)
  | function f => exact List.forall₂_same.2 fun c _ => .refl c
  | prototype head => exact .nil

namespace Program

/-- The walk under a version that asks for less. -/
theorem visits_freed {v w : Version} (h : v.Stricter w) (declarations : List Declaration) :
    List.Forall₂ Visit.Freed (Program.mk v declarations).visits
      (Program.mk w declarations).visits := by
  have hscript : ∀ (ds : List Declaration) (index : Nat), List.Forall₂ Command.Frees
      (Declaration.scriptAll v index ds) (Declaration.scriptAll w index ds) := by
    intro ds
    induction ds with
    | nil => exact fun _ => .nil
    | cons d ds ih => exact fun index => List.rel_append (d.script_frees h index) (ih _)
  rw [visits_eq, visits_eq, walk_eq_run, walk_eq_run]
  exact Event.Freed.visits (Command.Frees.run (hscript declarations 0) _ .start)

end Program

end ShaderMorph
