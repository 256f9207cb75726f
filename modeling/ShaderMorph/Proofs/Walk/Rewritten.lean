-- The walk over a program in which expressions were replaced. It meets the
-- same declarations in the same scopes. Of the expressions, those that are
-- not replaced are met as before, though with other numbers, and in the place
-- of one that is replaced the walk meets what it was replaced by.
import ShaderMorph.Proofs.Walk.Scopes

namespace ShaderMorph

/-- What the walk meets before and after expressions were replaced. -/
inductive Rewritten (heads : List Prototype) (r : Replacement) : List Event → List Event → Prop
  | nil : Rewritten heads r [] []
  | declare (d : Declared) {es es' : List Event} :
    Rewritten heads r es es' → Rewritten heads r (.declare d :: es) (.declare d :: es')
  | kept (v v' : Visit) {es es' : List Event} :
    r v.ordinal = none → (∀ k, v.parent = some k → r k = none) →
      v'.expr = v.expr.rewrite r v.ordinal → v'.scope = v.scope → v'.around = v.around →
        Rewritten heads r es es' → Rewritten heads r (.visit v :: es) (.visit v' :: es')
  | replaced (e new : Expr) (scope : ScopeTree) (around : Surroundings)
    (parent parent' : Option Nat) (k k' : Nat) {es es' : List Event} :
    r k = some new → Rewritten heads r es es' →
      Rewritten heads r ((e.visits heads scope around parent k).map .visit ++ es)
        ((new.visits heads scope around parent' k').map .visit ++ es')

/-- The first thing met in an expression is the expression. -/
theorem Expr.root_mem_visits (heads : List Prototype) (scope : ScopeTree) (e : Expr)
    (around : Surroundings) (parent : Option Nat) (k : Nat) :
    ⟨e, k, parent, around, scope⟩ ∈ e.visits heads scope around parent k := by
  cases e <;> exact List.mem_cons_self

namespace Rewritten

variable {heads : List Prototype} {r : Replacement}

theorem append {a a' b b' : List Event} (h : Rewritten heads r a a') (h' : Rewritten heads r b b') :
    Rewritten heads r (a ++ b) (a' ++ b') := by
  induction h with
  | nil => exact h'
  | declare d _ ih => exact .declare d ih
  | kept v v' hk hp he hs ha _ ih => exact .kept v v' hk hp he hs ha ih
  | replaced e new scope around parent parent' k k' hk _ ih =>
    simpa only [List.append_assoc] using .replaced e new scope around parent parent' k k' hk ih

theorem append_visits {a a' b b' : List Visit}
    (h : Rewritten heads r (a.map .visit) (a'.map .visit))
    (h' : Rewritten heads r (b.map .visit) (b'.map .visit)) :
    Rewritten heads r ((a ++ b).map .visit) ((a' ++ b').map .visit) := by
  simpa only [List.map_append] using h.append h'

/-- The declarations are the same. -/
theorem declared {es es' : List Event} (h : Rewritten heads r es es') :
    Event.declared es' = Event.declared es := by
  induction h with
  | nil => rfl
  | declare d _ ih => simp [ih]
  | kept v v' _ _ _ _ _ _ ih => simpa using ih
  | replaced e new scope around parent parent' k k' _ _ ih => simpa using ih

/-- A walk is cut at a declaration before and after alike. -/
theorem split {a b es es' : List Event} {d : Declared} (h : Rewritten heads r es es')
    (hs : es = a ++ .declare d :: b) :
    ∃ a' b', es' = a' ++ .declare d :: b' ∧ Rewritten heads r a a' ∧ Rewritten heads r b b' := by
  induction h generalizing a with
  | nil => simp at hs
  | declare d' h ih =>
    cases a with
    | nil =>
      cases hs
      exact ⟨[], _, rfl, .nil, h⟩
    | cons e a =>
      cases hs
      obtain ⟨a', b', rfl, ha, hb⟩ := ih rfl
      exact ⟨.declare d' :: a', b', rfl, .declare d' ha, hb⟩
  | kept v v' hk hp he hsc har h ih =>
    cases a with
    | nil => cases hs
    | cons e a =>
      cases hs
      obtain ⟨a', b', rfl, ha, hb⟩ := ih rfl
      exact ⟨.visit v' :: a', b', rfl, .kept v v' hk hp he hsc har ha, hb⟩
  | replaced e new scope around parent parent' k k' hk h ih =>
    rcases List.append_eq_append_iff.1 hs with ⟨a₂, rfl, hes⟩ | ⟨b₂, hvs, hb⟩
    · obtain ⟨a', b', rfl, ha, hb⟩ := ih hes
      exact ⟨_ ++ a', b', by rw [List.append_assoc],
        .replaced e new scope around parent parent' k k' hk ha, hb⟩
    · cases b₂ with
      | nil =>
        obtain ⟨a', b', rfl, ha, hb'⟩ := ih (a := []) hb.symm
        rw [List.append_nil] at hvs
        rw [← hvs]
        exact ⟨_ ++ a', b', by rw [List.append_assoc], by
          simpa using Rewritten.replaced e new scope around parent parent' k k' hk ha, hb'⟩
      | cons x b₂ =>
        cases hb
        have hmem : Event.declare d ∈ (e.visits heads scope around parent k).map .visit := by
          rw [hvs]
          simp
        simp at hmem

/-- An expression is replaced as a whole, or kept and its parts rewritten. -/
theorem root {e e' : Expr} {scope : ScopeTree} {around : Surroundings}
    {parent parent' : Option Nat} {k k' : Nat} {rest rest' : List Visit}
    (hp : ∀ j, parent = some j → r j = none)
    (hv : e.visits heads scope around parent k = ⟨e, k, parent, around, scope⟩ :: rest)
    (hr : e.rewrite r k = (r k).getD e')
    (hv' : e'.visits heads scope around parent' k' = ⟨e', k', parent', around, scope⟩ :: rest')
    (h : r k = none → Rewritten heads r (rest.map .visit) (rest'.map .visit)) :
    Rewritten heads r ((e.visits heads scope around parent k).map .visit)
      (((e.rewrite r k).visits heads scope around parent' k').map .visit) := by
  cases hk : r k with
  | none =>
    rw [hk, Option.getD_none] at hr
    rw [hr, hv, hv']
    exact .kept _ _ hk hp hr.symm rfl rfl (h hk)
  | some new =>
    rw [hk, Option.getD_some] at hr
    rw [hr]
    simpa using Rewritten.replaced e new scope around parent parent' k k' hk .nil

end Rewritten

/-! ## Expressions -/

namespace Expr

theorem length_rewriteAll (r : Replacement) (es : List Expr) (k : Nat) :
    (rewriteAll r es k).length = es.length := by
  induction es generalizing k with
  | nil => rfl
  | cons e es ih => simp [rewriteAll, ih]

variable (heads : List Prototype) (r : Replacement) (scope : ScopeTree)

mutual

theorem visits_rewrite : (e : Expr) → (around : Surroundings) → {parent : Option Nat} →
    (parent' : Option Nat) → (k k' : Nat) → (∀ j, parent = some j → r j = none) →
    Rewritten heads r ((e.visits heads scope around parent k).map .visit)
      (((e.rewrite r k).visits heads scope around parent' k').map .visit)
  | .ident name, _, _, _, _, _, hp => .root hp rfl rfl rfl fun _ => .nil
  | .literal value, _, _, _, _, _, hp => .root hp rfl rfl rfl fun _ => .nil
  | .binary op lhs rhs, _, _, _, _, _, hp => .root hp rfl rfl rfl fun hk =>
    (visits_rewrite lhs _ _ _ _ (by simpa using hk)).append_visits
      (visits_rewrite rhs _ _ _ _ (by simpa using hk))
  | .unary op operand, _, _, _, _, _, hp => .root hp rfl rfl rfl fun hk =>
    visits_rewrite operand _ _ _ _ (by simpa using hk)
  | .member base name, _, _, _, _, _, hp => .root hp rfl rfl rfl fun hk =>
    visits_rewrite base _ _ _ _ (by simpa using hk)
  | .index base position, _, _, _, _, _, hp => .root hp rfl rfl rfl fun hk =>
    (visits_rewrite base _ _ _ _ (by simpa using hk)).append_visits
      (visits_rewrite position _ _ _ _ (by simpa using hk))
  | .call callee args, _, _, _, _, _, hp => by
    refine .root hp rfl rfl rfl fun hk => ?_
    rw [length_rewriteAll]
    exact visitsArgs_rewrite callee args.length args _ _ _ _ _ _ hk
  | .ternary cond thenExpr elseExpr, _, _, _, _, _, hp => .root hp rfl rfl rfl fun hk =>
    ((visits_rewrite cond _ _ _ _ (by simpa using hk)).append_visits
      (visits_rewrite thenExpr _ _ _ _ (by simpa using hk))).append_visits
        (visits_rewrite elseExpr _ _ _ _ (by simpa using hk))
  | .paren inner, _, _, _, _, _, hp => .root hp rfl rfl rfl fun hk =>
    visits_rewrite inner _ _ _ _ (by simpa using hk)

theorem visitsArgs_rewrite (callee : String) (arity : Nat) : (es : List Expr) → (i : Nat) →
    (around : Surroundings) → (caller caller' k k' : Nat) → r caller = none →
    Rewritten heads r ((visitsArgs heads scope callee arity es i around caller k).map .visit)
      ((visitsArgs heads scope callee arity (rewriteAll r es k) i around caller' k').map .visit)
  | [], _, _, _, _, _, _, _ => by simpa only [rewriteAll, visitsArgs, List.map_nil] using .nil
  | e :: es, i, around, caller, caller', k, k', hk => by
    simp only [rewriteAll, visitsArgs]
    exact (visits_rewrite e _ _ _ _ (by simpa using hk)).append_visits
      (visitsArgs_rewrite callee arity es _ _ _ _ _ _ hk)

end

theorem visitsOption_rewrite (e : Option Expr) (around : Surroundings) (k k' : Nat) :
    Rewritten heads r ((visitsOption heads scope around e k).map .visit)
      ((visitsOption heads scope around (rewriteOption r e k) k').map .visit) := by
  cases e with
  | none => exact .nil
  | some e => exact e.visits_rewrite heads r scope around none k k' (by simp)

end Expr

/-! ## Scripts -/

namespace Command

/-- Replace expressions of a command, the first of them with number `k`. -/
def rewrite (r : Replacement) (k : Nat) : Command → Command
  | .expr around e => .expr around (e.rewrite r k)
  | .declare v => .declare { v with initializer := Expr.rewriteOption r v.initializer k }
  | .enter opensFrame => .enter opensFrame
  | .leave => .leave

def rewriteAll (r : Replacement) : (cs : List Command) → (k : Nat) → List Command
  | [], _ => []
  | c :: cs, k => c.rewrite r k :: rewriteAll r cs (k + c.exprs.length)

theorem rewriteAll_append (r : Replacement) (cs ds : List Command) (k : Nat) :
    rewriteAll r (cs ++ ds) k =
      rewriteAll r cs k ++ rewriteAll r ds (k + (cs.flatMap exprs).length) := by
  induction cs generalizing k with
  | nil => rfl
  | cons c cs ih =>
    simp [rewriteAll, ih, Nat.add_assoc]

/-- Replacing expressions changes nothing that a state keeps, but for the
number of the next expression. -/
theorem events_rewrite (heads : List Prototype) (r : Replacement) {s s' : WalkState}
    (hscope : s'.scope = s.scope) (hid : s'.id = s.id) (c : Command) :
    Rewritten heads r (c.events heads s) ((c.rewrite r s.ordinal).events heads s') := by
  cases c with
  | expr around e =>
    simp only [events, rewrite, hscope]
    exact e.visits_rewrite heads r s.scope around none s.ordinal s'.ordinal (by simp)
  | declare v =>
    simp only [events, rewrite, Declarator.visits, Declarator.declared, Declarator.symbol,
      hscope, hid]
    exact (Expr.visitsOption_rewrite heads r s.scope v.initializer (v.inner s.id) s.ordinal
      s'.ordinal).append (.declare _ .nil)
  | enter opensFrame => exact .nil
  | leave => exact .nil

theorem run_rewrite (heads : List Prototype) (r : Replacement) (cs : List Command)
    {s s' : WalkState} (hscope : s'.scope = s.scope) (hkept : s'.kept = s.kept)
    (hid : s'.id = s.id) :
    Rewritten heads r (run heads cs s) (run heads (rewriteAll r cs s.ordinal) s') := by
  induction cs generalizing s s' with
  | nil => exact .nil
  | cons c cs ih =>
    simp only [run, rewriteAll]
    refine (events_rewrite heads r hscope hid c).append ?_
    rw [← ordinal_next]
    cases c with
    | expr around e => exact ih hscope hkept hid
    | declare v =>
      refine ih ?_ hkept (congrArg (· + 1) hid)
      simp only [next, rewrite, Declarator.symbol, hscope, hid]
    | enter opensFrame =>
      refine ih ?_ ?_ hid
      · simp only [next, rewrite, hscope]
      · simp only [next, rewrite, hscope, hkept]
    | leave =>
      obtain ⟨scope, kept, ordinal, id⟩ := s
      obtain ⟨scope', kept', ordinal', id'⟩ := s'
      dsimp only at hscope hkept hid
      subst hscope hkept hid
      cases kept' <;> exact ih rfl rfl rfl

end Command

/-! ## The script of a program in which expressions were replaced -/

section

variable (r : Replacement)

theorem Expr.scriptOption_rewrite (around : Surroundings) (e : Option Expr) (k : Nat) :
    scriptOption around (rewriteOption r e k) = Command.rewriteAll r (scriptOption around e) k := by
  cases e <;> rfl

theorem VariableGroup.scriptMembers_rewrite (around : Surroundings) (kind : SymbolKind)
    (locate : Nat → DeclLocation) (g : VariableGroup) (members : List Variable) (member : Nat)
    (vs : List Variable) (k : Nat) :
    ({ g with members } : VariableGroup).scriptMembers around kind locate member
        (Variable.rewriteAll r vs k) =
      Command.rewriteAll r (g.scriptMembers around kind locate member vs) k := by
  induction vs generalizing member k with
  | nil => rfl
  | cons v vs ih =>
    simp only [Variable.rewriteAll, scriptMembers, Command.rewriteAll, ih, Command.rewrite,
      Command.exprs, declarator, Expr.length_preorderOption]
    rfl

theorem VariableGroup.script_rewrite (around : Surroundings) (kind : SymbolKind)
    (locate : Nat → DeclLocation) (g : VariableGroup) (k : Nat) :
    (g.rewrite r k).script around kind locate =
      Command.rewriteAll r (g.script around kind locate) k :=
  g.scriptMembers_rewrite r around kind locate _ 0 g.members k

namespace Stmt

mutual

theorem script_rewrite (around : Surroundings) : (s : Stmt) → (path : StmtPath) →
    (inList : Bool) → (k : Nat) →
    (s.rewrite r k).script around path inList =
      Command.rewriteAll r (s.script around path inList) k
  | .block stmts true, path, _, k => by
    simp [rewrite, script, Command.rewriteAll, Command.rewriteAll_append, Command.rewrite,
      Command.exprs, scriptAll_rewrite around stmts]
  | .block stmts false, path, _, k => by
    simp [rewrite, script, scriptAll_rewrite around stmts]
  | .decl group, path, inList, k => by simp only [rewrite, script, group.script_rewrite]
  | .expr value, path, _, k => by
    simp only [rewrite, script, Command.rewriteAll, Command.rewrite]
  | .ifThen cond thenBranch, path, _, k => by
    simp [rewrite, script, Command.rewriteAll, Command.rewriteAll_append, Command.rewrite,
      Command.exprs, script_rewrite around thenBranch]
  | .ifElse cond thenBranch elseBranch, path, _, k => by
    simp [rewrite, script, Command.rewriteAll, Command.rewriteAll_append, Command.rewrite,
      Command.exprs, script_rewrite around thenBranch, script_rewrite around elseBranch,
      script_exprs]
  | .forLoop init guard increment body, path, _, k => by
    simp [rewrite, script, Command.rewriteAll, Command.rewriteAll_append, Command.rewrite,
      Command.exprs, script_rewrite around init, script_rewrite around body,
      Expr.scriptOption_rewrite, script_exprs, Expr.scriptOption_exprs,
      -List.length_flatMap, Expr.length_preorderOption]
  | .whileLoop cond body, path, _, k => by
    simp [rewrite, script, Command.rewriteAll, Command.rewriteAll_append, Command.rewrite,
      Command.exprs, script_rewrite around body]
  | .doWhile body cond, path, _, k => by
    simp [rewrite, script, Command.rewriteAll, Command.rewriteAll_append, Command.rewrite,
      Command.exprs, script_rewrite around body, script_exprs]
  | .ret value, path, _, k => by simp only [rewrite, script, Expr.scriptOption_rewrite]
  | .breakLoop, _, _, _ => by simp only [rewrite, script, Command.rewriteAll]
  | .continueLoop, _, _, _ => by simp only [rewrite, script, Command.rewriteAll]
  | .discard, _, _, _ => by simp only [rewrite, script, Command.rewriteAll]
  | .empty, _, _, _ => by simp only [rewrite, script, Command.rewriteAll]

theorem scriptAll_rewrite (around : Surroundings) : (ss : List Stmt) → (path : StmtPath) →
    (slot k : Nat) →
    scriptAll around (rewriteAll r ss k) path slot =
      Command.rewriteAll r (scriptAll around ss path slot) k
  | [], _, _, _ => by simp only [rewriteAll, scriptAll, Command.rewriteAll]
  | s :: ss, path, slot, k => by
    simp only [rewriteAll, scriptAll, script_rewrite around s, scriptAll_rewrite around ss,
      Command.rewriteAll_append, script_exprs]

end

end Stmt

theorem Parameter.scriptAll_rewrite (function index : Nat) (qs : List Parameter) (k : Nat) :
    Command.rewriteAll r (scriptAll function index qs) k = scriptAll function index qs := by
  induction qs generalizing index k with
  | nil => rfl
  | cons q qs ih =>
    cases h : q.name with
    | none => simp only [scriptAll, h, ih]
    | some name => simp [scriptAll, h, Command.rewriteAll, Command.rewrite, ih, Expr.rewriteOption]

theorem Declaration.script_rewrite (version : Version) (index : Nat) (d : Declaration) (k : Nat) :
    (d.rewrite r k).script version index = Command.rewriteAll r (d.script version index) k := by
  cases d with
  | «variables» group => exact group.script_rewrite r _ _ _ k
  | function f =>
    simp [rewrite, script, Function.script, Command.rewriteAll, Command.rewriteAll_append,
      Command.rewrite, Command.exprs, Parameter.scriptAll_rewrite, Parameter.scriptAll_exprs,
      Stmt.scriptAll_rewrite]
  | prototype head => rfl

theorem Declaration.scriptAll_rewrite (version : Version) (index : Nat) (ds : List Declaration)
    (k : Nat) :
    scriptAll version index (rewriteAll r ds k) =
      Command.rewriteAll r (scriptAll version index ds) k := by
  induction ds generalizing index k with
  | nil => rfl
  | cons d ds ih =>
    simp only [rewriteAll, scriptAll, script_rewrite, ih, Command.rewriteAll_append, script_exprs]

namespace Program

theorem script_rewrite (p : Program) :
    (p.rewrite r).script = Command.rewriteAll r p.script 0 :=
  Declaration.scriptAll_rewrite r p.version 0 p.declarations 0

theorem prototypes_rewrite (p : Program) : (p.rewrite r).prototypes = p.prototypes := by
  unfold prototypes rewrite
  generalize 0 = k
  induction p.declarations generalizing k with
  | nil => rfl
  | cons d ds ih =>
    have hd : (d.rewrite r k).prototype? = d.prototype? := by cases d <;> rfl
    simp only [Declaration.rewriteAll, List.filterMap_cons, hd, ih]

/-- What the walk meets in a program in which expressions were replaced. -/
theorem walk_rewrite (p : Program) : Rewritten p.prototypes r p.walk (p.rewrite r).walk := by
  rw [walk_eq_run, walk_eq_run, prototypes_rewrite, script_rewrite]
  exact Command.run_rewrite p.prototypes r p.script rfl rfl rfl

theorem declared_rewrite (p : Program) : (p.rewrite r).declared = p.declared := by
  rw [declared_eq, declared_eq, (p.walk_rewrite r).declared]

end Program

end

end ShaderMorph
