-- Numbers on the walk. The visits of a walk are the expressions of the
-- program in order, numbered from zero on, and the declarations have their
-- ids in order, too.
import ShaderMorph.Proofs.Walk.Script

namespace ShaderMorph

/-! ## Visits of one expression -/

namespace Expr

variable (heads : List Prototype) (scope : ScopeTree)

mutual

/-- The visits of an expression are the expressions in it. -/
@[simp] theorem visits_expr : (e : Expr) → (around : Surroundings) → (parent : Option Nat) →
    (k : Nat) → (e.visits heads scope around parent k).map (·.expr) = e.preorder
  | .ident _, _, _, _ => rfl
  | .literal _, _, _, _ => rfl
  | .binary _ lhs rhs, _, _, _ => by simp [visits, preorder, visits_expr lhs, visits_expr rhs]
  | .unary _ operand, _, _, _ => by simp [visits, preorder, visits_expr operand]
  | .member base _, _, _, _ => by simp [visits, preorder, visits_expr base]
  | .index base position, _, _, _ => by
    simp [visits, preorder, visits_expr base, visits_expr position]
  | .call callee args, _, _, _ => by simp [visits, preorder, visitsArgs_expr callee _ args]
  | .ternary cond thenExpr elseExpr, _, _, _ => by
    simp [visits, preorder, visits_expr cond, visits_expr thenExpr, visits_expr elseExpr]
  | .paren inner, _, _, _ => by simp [visits, preorder, visits_expr inner]

theorem visitsArgs_expr (callee : String) (arity : Nat) : (es : List Expr) → (i : Nat) →
    (around : Surroundings) → (caller k : Nat) →
    (visitsArgs heads scope callee arity es i around caller k).map (·.expr) = preorderAll es
  | [], _, _, _, _ => rfl
  | e :: es, _, _, _, _ => by
    simp [visitsArgs, preorderAll, visits_expr e, visitsArgs_expr callee arity es]

end

mutual

/-- The visits of an expression are numbered one after the other. -/
@[simp] theorem visits_ordinal : (e : Expr) → (around : Surroundings) → (parent : Option Nat) →
    (k : Nat) → (e.visits heads scope around parent k).map (·.ordinal) = List.range' k e.size
  | .ident _, _, _, _ => rfl
  | .literal _, _, _, _ => rfl
  | .binary _ lhs rhs, _, _, k => by
    simp [visits, size, visits_ordinal lhs, visits_ordinal rhs, Nat.add_assoc,
      ← List.range'_append_1]
  | .unary _ operand, _, _, _ => by
    simp [visits, size, visits_ordinal operand, ← List.range'_append_1]
  | .member base _, _, _, _ => by
    simp [visits, size, visits_ordinal base, ← List.range'_append_1]
  | .index base position, _, _, _ => by
    simp [visits, size, visits_ordinal base, visits_ordinal position, Nat.add_assoc,
      ← List.range'_append_1]
  | .call callee args, _, _, _ => by
    simp [visits, size, visitsArgs_ordinal callee _ args, ← List.range'_append_1]
  | .ternary cond thenExpr elseExpr, _, _, _ => by
    simp [visits, size, visits_ordinal cond, visits_ordinal thenExpr, visits_ordinal elseExpr,
      Nat.add_assoc, ← List.range'_append_1]
  | .paren inner, _, _, _ => by
    simp [visits, size, visits_ordinal inner, ← List.range'_append_1]

theorem visitsArgs_ordinal (callee : String) (arity : Nat) : (es : List Expr) → (i : Nat) →
    (around : Surroundings) → (caller k : Nat) →
    (visitsArgs heads scope callee arity es i around caller k).map (·.ordinal) =
      List.range' k (sizeAll es)
  | [], _, _, _, _ => rfl
  | e :: es, _, _, _, _ => by
    simp [visitsArgs, sizeAll, visits_ordinal e, visitsArgs_ordinal callee arity es,
      ← List.range'_append_1]

end

theorem length_visits (e : Expr) (around : Surroundings) (parent : Option Nat) (k : Nat) :
    (e.visits heads scope around parent k).length = e.size := by
  rw [← List.length_map (·.ordinal), visits_ordinal, List.length_range']

end Expr

@[simp] theorem Surroundings.read_read (s : Surroundings) : s.read.read = s.read := rfl

@[simp] theorem Surroundings.written_read (s : Surroundings) : s.written.read = s.read := rfl

/-- Visited in the same scope and in surroundings that differ at most in what
is written. -/
def Visit.Beside (scope : ScopeTree) (around : Surroundings) (v : Visit) : Prop :=
  v.scope = scope ∧ v.around.read = around.read

theorem Visit.Beside.of_read {scope : ScopeTree} {inner around : Surroundings} {vs : List Visit}
    (h : ∀ v ∈ vs, v.Beside scope inner) (hr : inner.read = around.read) :
    ∀ v ∈ vs, v.Beside scope around :=
  fun v hv => ⟨(h v hv).1, (h v hv).2.trans hr⟩

namespace Expr

variable (heads : List Prototype) (scope : ScopeTree)

mutual

/-- All visits of an expression have its scope and its surroundings. -/
theorem visits_beside : (e : Expr) → (around : Surroundings) → (parent : Option Nat) →
    (k : Nat) → ∀ v ∈ e.visits heads scope around parent k, v.Beside scope around
  | .ident _, _, _, _ => by simp [visits, Visit.Beside]
  | .literal _, _, _, _ => by simp [visits, Visit.Beside]
  | .binary op lhs rhs, around, _, _ => by
    simp only [visits, List.forall_mem_cons, List.forall_mem_append]
    refine ⟨⟨rfl, rfl⟩, .of_read (visits_beside lhs _ _ _) ?_,
      .of_read (visits_beside rhs _ _ _) rfl⟩
    split <;> rfl
  | .unary op operand, around, _, _ => by
    simp only [visits, List.forall_mem_cons]
    refine ⟨⟨rfl, rfl⟩, .of_read (visits_beside operand _ _ _) ?_⟩
    split <;> rfl
  | .member base _, _, _, _ => by
    simp only [visits, List.forall_mem_cons]
    exact ⟨⟨rfl, rfl⟩, visits_beside base _ _ _⟩
  | .index base position, _, _, _ => by
    simp only [visits, List.forall_mem_cons, List.forall_mem_append]
    exact ⟨⟨rfl, rfl⟩, visits_beside base _ _ _, .of_read (visits_beside position _ _ _) rfl⟩
  | .call callee args, _, _, _ => by
    simp only [visits, List.forall_mem_cons]
    exact ⟨⟨rfl, rfl⟩, visitsArgs_beside callee _ args _ _ _ _⟩
  | .ternary cond thenExpr elseExpr, _, _, _ => by
    simp only [visits, List.forall_mem_cons, List.forall_mem_append]
    exact ⟨⟨rfl, rfl⟩, ⟨.of_read (visits_beside cond _ _ _) rfl,
      .of_read (visits_beside thenExpr _ _ _) rfl⟩, .of_read (visits_beside elseExpr _ _ _) rfl⟩
  | .paren inner, _, _, _ => by
    simp only [visits, List.forall_mem_cons]
    exact ⟨⟨rfl, rfl⟩, visits_beside inner _ _ _⟩

theorem visitsArgs_beside (callee : String) (arity : Nat) : (es : List Expr) → (i : Nat) →
    (around : Surroundings) → (caller k : Nat) →
    ∀ v ∈ visitsArgs heads scope callee arity es i around caller k, v.Beside scope around
  | [], _, _, _, _ => by simp [visitsArgs]
  | e :: es, _, _, _, _ => by
    simp only [visitsArgs, List.forall_mem_append]
    refine ⟨.of_read (visits_beside e _ _ _) ?_, visitsArgs_beside callee arity es _ _ _ _⟩
    split <;> rfl

end

end Expr

/-! ## What an expression is part of -/

/-- A visit of one of these roots, or one of a part of what is visited. -/
def Visit.Stems (vs : List Visit) (parent : Option Nat) (roots : List Expr) (v : Visit) : Prop :=
  (v.parent = parent ∧ v.expr ∈ roots) ∨
    ∃ w ∈ vs, v.parent = some w.ordinal ∧ v.expr ∈ w.expr.children

namespace Visit.Stems

variable {vs inner : List Visit} {parent : Option Nat} {roots : List Expr}

theorem mono {roots' : List Expr} (h : ∀ v ∈ inner, v.Stems inner parent roots)
    (hsub : ∀ v ∈ inner, v ∈ vs) (hroots : ∀ e ∈ roots, e ∈ roots') :
    ∀ v ∈ inner, v.Stems vs parent roots' := by
  intro v hv
  rcases h v hv with ⟨hp, he⟩ | ⟨w, hw, hp, he⟩
  · exact Or.inl ⟨hp, hroots _ he⟩
  · exact Or.inr ⟨w, hsub w hw, hp, he⟩

/-- The visits of the parts of an expression that is visited. -/
theorem parts {roots' : List Expr} {parent' : Option Nat} {w : Visit} (hw : w ∈ vs)
    (h : ∀ v ∈ inner, v.Stems inner (some w.ordinal) roots) (hsub : ∀ v ∈ inner, v ∈ vs)
    (hroots : ∀ e ∈ roots, e ∈ w.expr.children) : ∀ v ∈ inner, v.Stems vs parent' roots' := by
  intro v hv
  rcases h v hv with ⟨hp, he⟩ | ⟨u, hu, hp, he⟩
  · exact Or.inr ⟨w, hw, hp, hroots _ he⟩
  · exact Or.inr ⟨u, hsub u hu, hp, he⟩

end Visit.Stems

namespace Expr

variable (heads : List Prototype) (scope : ScopeTree)

mutual

theorem visits_stems : (e : Expr) → (around : Surroundings) → (parent : Option Nat) → (k : Nat) →
    ∀ v ∈ e.visits heads scope around parent k,
      v.Stems (e.visits heads scope around parent k) parent [e]
  | .ident _, _, _, _ => by simp [visits, Visit.Stems]
  | .literal _, _, _, _ => by simp [visits, Visit.Stems]
  | .binary _ lhs rhs, _, _, _ => by
    rw [visits, List.forall_mem_cons, List.forall_mem_append]
    refine ⟨Or.inl ⟨rfl, List.mem_singleton_self _⟩, ?_, ?_⟩
    · exact .parts List.mem_cons_self (visits_stems lhs _ _ _) (by simp_all) (by simp [children])
    · exact .parts List.mem_cons_self (visits_stems rhs _ _ _) (by simp_all) (by simp [children])
  | .unary _ operand, _, _, _ => by
    rw [visits, List.forall_mem_cons]
    refine ⟨Or.inl ⟨rfl, List.mem_singleton_self _⟩, ?_⟩
    exact .parts List.mem_cons_self (visits_stems operand _ _ _) (by simp_all) (by simp [children])
  | .member base _, _, _, _ => by
    rw [visits, List.forall_mem_cons]
    refine ⟨Or.inl ⟨rfl, List.mem_singleton_self _⟩, ?_⟩
    exact .parts List.mem_cons_self (visits_stems base _ _ _) (by simp_all) (by simp [children])
  | .index base position, _, _, _ => by
    rw [visits, List.forall_mem_cons, List.forall_mem_append]
    refine ⟨Or.inl ⟨rfl, List.mem_singleton_self _⟩, ?_, ?_⟩
    · exact .parts List.mem_cons_self (visits_stems base _ _ _) (by simp_all) (by simp [children])
    · exact .parts List.mem_cons_self (visits_stems position _ _ _) (by simp_all)
        (by simp [children])
  | .call callee args, _, _, _ => by
    rw [visits, List.forall_mem_cons]
    refine ⟨Or.inl ⟨rfl, List.mem_singleton_self _⟩, ?_⟩
    exact .parts List.mem_cons_self (visitsArgs_stems callee _ args _ _ _ _) (by simp_all)
      (by simp [children])
  | .ternary cond thenExpr elseExpr, _, _, _ => by
    rw [visits, List.forall_mem_cons, List.forall_mem_append, List.forall_mem_append]
    refine ⟨Or.inl ⟨rfl, List.mem_singleton_self _⟩, ⟨?_, ?_⟩, ?_⟩
    · exact .parts List.mem_cons_self (visits_stems cond _ _ _) (by simp_all) (by simp [children])
    · exact .parts List.mem_cons_self (visits_stems thenExpr _ _ _) (by simp_all)
        (by simp [children])
    · exact .parts List.mem_cons_self (visits_stems elseExpr _ _ _) (by simp_all)
        (by simp [children])
  | .paren inner, _, _, _ => by
    rw [visits, List.forall_mem_cons]
    refine ⟨Or.inl ⟨rfl, List.mem_singleton_self _⟩, ?_⟩
    exact .parts List.mem_cons_self (visits_stems inner _ _ _) (by simp_all) (by simp [children])

theorem visitsArgs_stems (callee : String) (arity : Nat) : (es : List Expr) → (i : Nat) →
    (around : Surroundings) → (caller k : Nat) →
    ∀ v ∈ visitsArgs heads scope callee arity es i around caller k,
      v.Stems (visitsArgs heads scope callee arity es i around caller k) (some caller) es
  | [], _, _, _, _ => by simp [visitsArgs]
  | e :: es, _, _, _, _ => by
    rw [visitsArgs, List.forall_mem_append]
    refine ⟨?_, ?_⟩
    · exact .mono (visits_stems e _ _ _) (by simp_all) (by simp)
    · exact .mono (visitsArgs_stems callee arity es _ _ _ _) (by simp_all) (by simp_all)

end

end Expr

/-! ## Events -/

namespace Event

def visit? : Event → Option Visit
  | .visit v => some v
  | .declare _ => none

def declared? : Event → Option Declared
  | .visit _ => none
  | .declare d => some d

/-- The visits among events. -/
def visits (events : List Event) : List Visit := events.filterMap visit?

/-- The declarations among events. -/
def declared (events : List Event) : List Declared := events.filterMap declared?

@[simp] theorem visits_append (a b : List Event) : visits (a ++ b) = visits a ++ visits b :=
  List.filterMap_append

@[simp] theorem declared_append (a b : List Event) :
    declared (a ++ b) = declared a ++ declared b := List.filterMap_append

@[simp] theorem visits_nil : visits [] = [] := rfl

@[simp] theorem declared_nil : declared [] = [] := rfl

@[simp] theorem visits_cons_visit (v : Visit) (es : List Event) :
    visits (.visit v :: es) = v :: visits es := rfl

@[simp] theorem visits_cons_declare (d : Declared) (es : List Event) :
    visits (.declare d :: es) = visits es := rfl

@[simp] theorem declared_cons_visit (v : Visit) (es : List Event) :
    declared (.visit v :: es) = declared es := rfl

@[simp] theorem declared_cons_declare (d : Declared) (es : List Event) :
    declared (.declare d :: es) = d :: declared es := rfl

@[simp] theorem visits_map_visit (vs : List Visit) : visits (vs.map .visit) = vs := by
  simp [visits, List.filterMap_map, Function.comp_def, visit?]

@[simp] theorem declared_map_visit (vs : List Visit) : declared (vs.map .visit) = [] := by
  simp [declared, List.filterMap_map, Function.comp_def, declared?]

theorem mem_visits {events : List Event} {v : Visit} : v ∈ visits events ↔ .visit v ∈ events := by
  constructor
  · intro h
    obtain ⟨e, he, hv⟩ := List.mem_filterMap.1 h
    cases e with
    | visit w => simp only [visit?, Option.some.injEq] at hv; exact hv ▸ he
    | declare d => cases hv
  · exact fun h => List.mem_filterMap.2 ⟨_, h, rfl⟩

theorem mem_declared {events : List Event} {d : Declared} :
    d ∈ declared events ↔ .declare d ∈ events := by
  constructor
  · intro h
    obtain ⟨e, he, hd⟩ := List.mem_filterMap.1 h
    cases e with
    | visit w => cases hd
    | declare d => simp only [declared?, Option.some.injEq] at hd; exact hd ▸ he
  · exact fun h => List.mem_filterMap.2 ⟨_, h, rfl⟩

end Event

namespace Program

theorem visits_eq (p : Program) : p.visits = Event.visits p.walk := by
  unfold visits Event.visits
  congr 1

theorem declared_eq (p : Program) : p.declared = Event.declared p.walk := by
  unfold declared Event.declared
  congr 1

theorem mem_visits {p : Program} {v : Visit} : v ∈ p.visits ↔ .visit v ∈ p.walk := by
  rw [visits_eq, Event.mem_visits]

theorem mem_declared {p : Program} {d : Declared} : d ∈ p.declared ↔ .declare d ∈ p.walk := by
  rw [declared_eq, Event.mem_declared]

end Program

/-! ## The numbers of a script -/

namespace Command

/-- The expressions of a command. -/
def exprs : Command → List Expr
  | .expr _ e => e.preorder
  | .declare v => v.initializer.toList.flatMap Expr.preorder
  | .enter _ => []
  | .leave => []

@[simp] theorem visits_events_expr (heads : List Prototype) (s : WalkState) (c : Command) :
    (Event.visits (c.events heads s)).map (·.expr) = c.exprs := by
  cases c with
  | expr around e => simp [events, exprs]
  | declare v =>
    cases h : v.initializer <;> simp [events, exprs, Declarator.visits, Expr.visitsOption, h]
  | enter o => rfl
  | leave => rfl

theorem visits_events_ordinal (heads : List Prototype) (s : WalkState) (c : Command) :
    (Event.visits (c.events heads s)).map (·.ordinal) = List.range' s.ordinal c.exprs.length := by
  cases c with
  | expr around e => simp [events, exprs]
  | declare v =>
    cases h : v.initializer <;> simp [events, exprs, Declarator.visits, Expr.visitsOption, h]
  | enter o => rfl
  | leave => rfl

theorem ordinal_next (s : WalkState) (c : Command) :
    (c.next s).ordinal = s.ordinal + c.exprs.length := by
  cases c with
  | expr around e => simp [next, exprs]
  | declare v => simp only [next, exprs, Expr.length_preorderOption]
  | enter o => rfl
  | leave => simp only [next]; split <;> rfl

/-- A run meets the expressions of its commands. -/
theorem run_exprs (heads : List Prototype) (cs : List Command) (s : WalkState) :
    (Event.visits (run heads cs s)).map (·.expr) = cs.flatMap exprs := by
  induction cs generalizing s with
  | nil => rfl
  | cons c cs ih => simp [run, ih]

theorem run_ordinals (heads : List Prototype) (cs : List Command) (s : WalkState) :
    (Event.visits (run heads cs s)).map (·.ordinal) =
      List.range' s.ordinal (cs.flatMap exprs).length := by
  induction cs generalizing s with
  | nil => rfl
  | cons c cs ih =>
    rw [run, Event.visits_append, List.map_append, visits_events_ordinal, ih, ordinal_next,
      List.range'_append_1, List.flatMap_cons, List.length_append]

/-- The number of variables that a command declares. -/
def arity : Command → Nat
  | .declare _ => 1
  | _ => 0

def arityAll : List Command → Nat
  | [] => 0
  | c :: cs => c.arity + arityAll cs

theorem declared_events_id (heads : List Prototype) (s : WalkState) (c : Command) :
    (Event.declared (c.events heads s)).map (·.symbol.id) = List.range' s.id c.arity := by
  cases c <;> simp [events, arity, Declarator.declared, Declarator.symbol]

theorem id_next (s : WalkState) (c : Command) : (c.next s).id = s.id + c.arity := by
  cases c with
  | leave => simp only [next]; split <;> rfl
  | _ => rfl

/-- A run gives ids one after the other. -/
theorem run_ids (heads : List Prototype) (cs : List Command) (s : WalkState) :
    (Event.declared (run heads cs s)).map (·.symbol.id) =
      List.range' s.id (arityAll cs) := by
  induction cs generalizing s with
  | nil => rfl
  | cons c cs ih =>
    rw [run, Event.declared_append, List.map_append, declared_events_id, ih, id_next,
      List.range'_append_1, arityAll]

theorem id_final (cs : List Command) (s : WalkState) :
    (final cs s).id = s.id + arityAll cs := by
  induction cs generalizing s with
  | nil => rfl
  | cons c cs ih => rw [final_cons, ih, id_next, arityAll, Nat.add_assoc]

end Command

/-! ## The expressions of a script -/

theorem Expr.scriptOption_exprs (around : Surroundings) (e : Option Expr) :
    (scriptOption around e).flatMap Command.exprs = e.toList.flatMap preorder := by
  cases e <;> rfl

theorem VariableGroup.scriptMembers_exprs (around : Surroundings) (kind : SymbolKind)
    (locate : Nat → DeclLocation) (g : VariableGroup) (member : Nat) (vs : List Variable) :
    (g.scriptMembers around kind locate member vs).flatMap Command.exprs =
      Variable.exprsAll vs := by
  induction vs generalizing member with
  | nil => rfl
  | cons v vs ih =>
    simp only [scriptMembers, List.flatMap_cons, ih, Variable.exprsAll, Command.exprs, declarator]

theorem VariableGroup.script_exprs (around : Surroundings) (kind : SymbolKind)
    (locate : Nat → DeclLocation) (g : VariableGroup) :
    (g.script around kind locate).flatMap Command.exprs = g.exprs := by
  rw [script, scriptMembers_exprs, exprs_eq]

namespace Stmt

mutual

theorem script_exprs (around : Surroundings) : (s : Stmt) → (path : StmtPath) →
    (inList : Bool) → (s.script around path inList).flatMap Command.exprs = s.exprs
  | .block stmts true, _, _ => by
    simp [script, exprs, Command.exprs, scriptAll_exprs around stmts]
  | .block stmts false, _, _ => by simp [script, exprs, scriptAll_exprs around stmts]
  | .decl group, _, _ => by simp only [script, exprs, group.script_exprs]
  | .expr value, _, _ => by simp [script, exprs, Command.exprs]
  | .ifThen cond thenBranch, _, _ => by
    simp [script, exprs, Command.exprs, script_exprs around thenBranch]
  | .ifElse cond thenBranch elseBranch, _, _ => by
    simp [script, exprs, Command.exprs, script_exprs around thenBranch,
      script_exprs around elseBranch]
  | .forLoop init guard increment body, _, _ => by
    simp [script, exprs, Command.exprs, script_exprs around init, script_exprs around body,
      Expr.scriptOption_exprs]
  | .whileLoop cond body, _, _ => by
    simp [script, exprs, Command.exprs, script_exprs around body]
  | .doWhile body cond, _, _ => by
    simp [script, exprs, Command.exprs, script_exprs around body]
  | .ret value, _, _ => by simp only [script, exprs, Expr.scriptOption_exprs]
  | .breakLoop, _, _ => rfl
  | .continueLoop, _, _ => rfl
  | .discard, _, _ => rfl
  | .empty, _, _ => rfl

theorem scriptAll_exprs (around : Surroundings) : (ss : List Stmt) → (path : StmtPath) →
    (slot : Nat) → (scriptAll around ss path slot).flatMap Command.exprs = exprsAll ss
  | [], _, _ => rfl
  | s :: ss, _, _ => by
    simp [scriptAll, exprsAll, script_exprs around s, scriptAll_exprs around ss]

end

end Stmt

theorem Parameter.scriptAll_exprs (function index : Nat) (qs : List Parameter) :
    (scriptAll function index qs).flatMap Command.exprs = [] := by
  induction qs generalizing index with
  | nil => rfl
  | cons q qs ih => cases h : q.name <;> simp [scriptAll, h, Command.exprs, ih]

theorem Declaration.script_exprs (version : Version) (index : Nat) (d : Declaration) :
    (d.script version index).flatMap Command.exprs = d.exprs := by
  cases d with
  | «variables» group => exact group.script_exprs _ _ _
  | function f =>
    simp [script, Function.script, exprs, Command.exprs, Parameter.scriptAll_exprs,
      Stmt.scriptAll_exprs]
  | prototype head => rfl

theorem Declaration.scriptAll_exprs (version : Version) (index : Nat) (ds : List Declaration) :
    (scriptAll version index ds).flatMap Command.exprs = ds.flatMap exprs := by
  induction ds generalizing index with
  | nil => rfl
  | cons d ds ih => simp [scriptAll, script_exprs, ih]

namespace Program

theorem script_exprs (p : Program) : p.script.flatMap Command.exprs = p.exprs :=
  Declaration.scriptAll_exprs p.version 0 p.declarations

/-- The walk visits every expression of the program, in order. -/
theorem visits_expr (p : Program) : p.visits.map (·.expr) = p.exprs := by
  rw [visits_eq, walk_eq_run, Command.run_exprs, script_exprs]

/-- The visits of the walk are numbered from zero on. -/
theorem visits_ordinal (p : Program) : p.visits.map (·.ordinal) = List.range p.exprCount := by
  rw [visits_eq, walk_eq_run, Command.run_ordinals, script_exprs, exprCount, List.range_eq_range']
  rfl

/-- A visit has the number of its place on the walk. -/
theorem ordinal_getElem {p : Program} {i : Nat} (hi : i < p.visits.length) :
    p.visits[i].ordinal = i := by
  have hord : (p.visits.map (·.ordinal))[i]? = some i := by
    rw [visits_ordinal, exprCount, ← visits_expr, List.length_map, List.getElem?_range hi]
  rwa [List.getElem?_map, List.getElem?_eq_getElem hi, Option.map_some, Option.some.injEq] at hord

/-- The expression of a visit is the one with its number. -/
theorem exprs_ordinal {p : Program} {v : Visit} (hv : v ∈ p.visits) :
    p.exprs[v.ordinal]? = some v.expr := by
  obtain ⟨i, hi, rfl⟩ := List.getElem_of_mem hv
  rw [ordinal_getElem hi, ← visits_expr, List.getElem?_map, List.getElem?_eq_getElem hi,
    Option.map_some]

/-- A visit is told by its number. -/
theorem visits_ext {p : Program} {v w : Visit} (hv : v ∈ p.visits) (hw : w ∈ p.visits)
    (h : v.ordinal = w.ordinal) : v = w := by
  obtain ⟨i, hi, rfl⟩ := List.getElem_of_mem hv
  obtain ⟨j, hj, rfl⟩ := List.getElem_of_mem hw
  rw [ordinal_getElem hi, ordinal_getElem hj] at h
  subst h
  rfl

/-- Nothing is visited both before and behind a declaration. -/
theorem visit_notMem_of_before {p : Program} {a b : List Event} {d : Declared}
    (h : p.walk = a ++ .declare d :: b) {v : Visit} (hv : .visit v ∈ a) : .visit v ∉ b := by
  have hnodup : p.visits.Nodup := by
    have hordinals : (p.visits.map (·.ordinal)).Pairwise (· ≠ ·) := by
      rw [visits_ordinal]
      exact List.nodup_range
    exact (List.pairwise_map.1 hordinals).imp fun hne heq => hne (congrArg _ heq)
  rw [visits_eq, h, Event.visits_append, Event.visits_cons_declare, List.nodup_append] at hnodup
  exact fun hb => hnodup.2.2 v (Event.mem_visits.2 hv) v (Event.mem_visits.2 hb) rfl

/-- The declarations of the walk have the ids from zero on. -/
theorem declared_id (p : Program) :
    p.declared.map (·.symbol.id) = List.range p.declared.length := by
  have h := Command.run_ids p.prototypes p.script .start
  rw [← walk_eq_run, ← declared_eq] at h
  have hl := congrArg List.length h
  rw [List.length_map, List.length_range'] at hl
  rw [h, hl, List.range_eq_range']
  rfl

end Program

end ShaderMorph
