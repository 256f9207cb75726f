-- Where the nodes of expressions stand. The walk hands an expression its
-- scope and its surroundings, and the expression hands them on to its parts.
-- So what the walk meets at a node is told by the address of the node: the
-- scope is that of the expression at the root, and the surroundings are those
-- of the root as each step of the way changes them.
import ShaderMorph.Proofs.Nodes.Numbers

namespace ShaderMorph

/-- An expression and where it stands. -/
structure Site where
  expr : Expr
  scope : ScopeTree
  around : Surroundings

/-- The visits of expressions one after the other, the first of them with
number `k`. -/
def Site.row (heads : List Prototype) (parent : Option Nat) : List Site → Nat → List Visit
  | [], _ => []
  | s :: ss, k =>
    s.expr.visits heads s.scope s.around parent k ++ row heads parent ss (k + s.expr.size)

/-! ## The parts of an expression -/

namespace Expr

/-- The surroundings of the part numbered `i` of an expression. -/
def inner (heads : List Prototype) (around : Surroundings) : Expr → (i : Nat) → Surroundings
  | .ident _, _ => around.read
  | .literal _, _ => around.read
  | .binary op _ _, i => if i = 0 ∧ op.isAssignment then around.written else around.read
  | .unary op _, _ => if op.writesOperand then around.written else around.read
  | .member _ _, _ => around
  | .index _ _, i => if i = 0 then around else around.read
  | .call callee args, i =>
    if writesArgument heads callee args.length i then around.written else around.read
  | .ternary _ _ _, _ => around.read
  | .paren _, _ => around

/-- The parts of an expression, where they stand. -/
def sites (heads : List Prototype) (scope : ScopeTree) (around : Surroundings) (e : Expr) :
    List Site :=
  e.children.mapIdx fun i part => ⟨part, scope, e.inner heads around i⟩

variable (heads : List Prototype) (scope : ScopeTree)

theorem visitsArgs_eq_row (callee : String) (arity : Nat) (es : List Expr) (i : Nat)
    (around : Surroundings) (caller k : Nat) :
    visitsArgs heads scope callee arity es i around caller k =
      Site.row heads (some caller) (es.mapIdx fun j e => ⟨e, scope,
        if writesArgument heads callee arity (i + j) then around.written else around.read⟩) k := by
  induction es generalizing i k with
  | nil => rfl
  | cons e es ih =>
    rw [visitsArgs, ih, List.mapIdx_cons, Site.row]
    simp only [Nat.add_zero, Nat.add_assoc, Nat.add_comm 1]

/-- Behind an expression, the walk meets its parts where they stand. -/
theorem visits_eq_row (e : Expr) (around : Surroundings) (parent : Option Nat) (k : Nat) :
    e.visits heads scope around parent k =
      ⟨e, k, parent, around, scope⟩ ::
        Site.row heads (some k) (e.sites heads scope around) (k + 1) := by
  cases e with
  | call callee args =>
    rw [visits, visitsArgs_eq_row]
    simp only [sites, children, inner, Nat.zero_add]
  | _ => simp [visits, sites, children, inner, Site.row]

theorem sites_exprs (around : Surroundings) (e : Expr) :
    (e.sites heads scope around).map (·.expr) = e.children := by
  apply List.ext_getElem?
  intro i
  simp [sites, Option.map_map, Function.comp_def]

theorem getElem?_sites (around : Surroundings) {e part : Expr} {i : Nat}
    (h : e.children[i]? = some part) :
    (e.sites heads scope around)[i]? = some ⟨part, scope, e.inner heads around i⟩ := by
  simp [sites, h]

/-- The surroundings of the node that steps lead to. -/
def aroundAt (heads : List Prototype) : (around : Surroundings) → Expr → (steps : List Nat) →
    Surroundings
  | around, _, [] => around
  | around, e, i :: steps =>
    e.children[i]?.elim around fun part => part.aroundAt heads (e.inner heads around i) steps

end Expr

/-! ## Rows -/

namespace Site

variable (heads : List Prototype) (parent : Option Nat)

theorem row_append (ss ts : List Site) (k : Nat) :
    row heads parent (ss ++ ts) k =
      row heads parent ss k ++ row heads parent ts (k + Expr.sizeAll (ss.map (·.expr))) := by
  induction ss generalizing k with
  | nil => rfl
  | cons s ss ih =>
    simp [row, Expr.sizeAll, ih, List.append_assoc, Nat.add_assoc]

/-- The visits of one of the expressions of a row. -/
theorem getElem?_row {ss : List Site} {i n : Nat} {s : Site} (hi : ss[i]? = some s)
    (hn : n < s.expr.size) (k : Nat) :
    (row heads parent ss k)[Expr.sizeAll ((ss.map (·.expr)).take i) + n]? =
      (s.expr.visits heads s.scope s.around parent
        (k + Expr.sizeAll ((ss.map (·.expr)).take i)))[n]? := by
  induction ss generalizing i k with
  | nil => cases hi
  | cons t ss ih =>
    have hlength := t.expr.length_visits heads t.scope t.around parent k
    cases i with
    | zero =>
      obtain rfl : t = s := by simpa using hi
      simp only [List.map_cons, List.take_zero, Expr.sizeAll, Nat.zero_add, Nat.add_zero, row]
      exact List.getElem?_append_left (by rwa [hlength])
    | succ i =>
      simp only [List.map_cons, List.take_succ_cons, Expr.sizeAll, row]
      rw [Nat.add_assoc, List.getElem?_append_right (by rw [hlength]; omega), hlength,
        Nat.add_sub_cancel_left, ih (by simpa using hi), Nat.add_assoc]

end Site

namespace Expr

/-- What the walk meets at the node that steps lead to. -/
theorem visits_node {e node : Expr} {steps : List Nat} (h : e.node? steps = some node)
    (heads : List Prototype) (scope : ScopeTree) (around : Surroundings) (parent : Option Nat)
    (k : Nat) :
    (e.visits heads scope around parent k)[e.number steps]? =
      some ⟨node, k + e.number steps,
        if steps.isEmpty then parent else some (k + e.number steps.dropLast),
        e.aroundAt heads around steps, scope⟩ := by
  induction steps generalizing e around parent k with
  | nil =>
    obtain rfl := Option.some.inj h
    rw [visits_eq_row]
    rfl
  | cons i steps ih =>
    obtain ⟨part, hpart, h⟩ := node?_cons_eq_some.1 h
    have hrow := Site.getElem?_row heads (some k) (getElem?_sites heads scope around hpart)
      (number_lt h) (k + 1)
    rw [sites_exprs] at hrow
    have hnumber := number_cons hpart steps
    rw [visits_eq_row, hnumber, Nat.add_assoc, Nat.add_comm 1, List.getElem?_cons_succ, hrow, ih h]
    have hparent : (if steps.isEmpty then some k
        else some (k + 1 + sizeAll (e.children.take i) + part.number steps.dropLast)) =
          some (k + e.number (i :: steps).dropLast) := by
      cases steps with
      | nil => rfl
      | cons j steps =>
        rw [List.dropLast_cons_cons, number_cons hpart]
        simp only [List.isEmpty_cons, Bool.false_eq_true, if_false, Option.some.injEq]
        omega
    have haround : e.aroundAt heads around (i :: steps) =
        part.aroundAt heads (e.inner heads around i) steps := by
      simp [aroundAt, hpart]
    rw [hparent, haround]
    simp only [List.isEmpty_cons, Bool.false_eq_true, if_false, Option.some.injEq,
      Visit.mk.injEq, and_true, true_and]
    omega

end Expr

/-! ## The roots of a program -/

namespace Command

/-- The expressions that a command walks, where they stand. -/
def sites (s : WalkState) : Command → List Site
  | .expr around e => [⟨e, s.scope, around⟩]
  | .declare v => v.initializer.toList.map fun e => ⟨e, s.scope, v.inner s.id⟩
  | .enter _ => []
  | .leave => []

/-- The expressions that commands walk one after the other. -/
def sitesAll : List Command → WalkState → List Site
  | [], _ => []
  | c :: cs, s => c.sites s ++ sitesAll cs (c.next s)

theorem visits_events (heads : List Prototype) (s : WalkState) (c : Command) :
    Event.visits (c.events heads s) = Site.row heads none (c.sites s) s.ordinal := by
  cases c with
  | expr around e => simp [events, sites, Site.row]
  | declare v =>
    cases h : v.initializer <;>
      simp [events, sites, Site.row, Declarator.visits, Expr.visitsOption, h]
  | enter o => rfl
  | leave => rfl

theorem sites_exprs (s : WalkState) (c : Command) : (c.sites s).map (·.expr) = c.rootExprs := by
  cases c <;> simp [sites, rootExprs, Function.comp_def]

theorem sitesAll_exprs (cs : List Command) (s : WalkState) :
    (sitesAll cs s).map (·.expr) = cs.flatMap rootExprs := by
  induction cs generalizing s with
  | nil => rfl
  | cons c cs ih => simp [sitesAll, sites_exprs, ih]

theorem visits_run (heads : List Prototype) (cs : List Command) (s : WalkState) :
    Event.visits (run heads cs s) = Site.row heads none (sitesAll cs s) s.ordinal := by
  induction cs generalizing s with
  | nil => rfl
  | cons c cs ih =>
    rw [run, Event.visits_append, visits_events, ih, sitesAll, Site.row_append, sites_exprs,
      sizeAll_rootExprs, ordinal_next]

end Command

namespace Program

/-- The expressions of a program that are no parts of others, where they
stand. -/
def sites (p : Program) : List Site := Command.sitesAll p.script .start

theorem sites_exprs (p : Program) : p.sites.map (·.expr) = p.rootExprs := by
  rw [sites, Command.sitesAll_exprs, script_rootExprs]

theorem visits_eq_row (p : Program) : p.visits = Site.row p.prototypes none p.sites 0 := by
  rw [visits_eq, walk_eq_run, Command.visits_run]
  rfl

/-- What the walk meets at an address. -/
theorem visits_node {p : Program} {a : NodePath} {node : Expr} (h : p.node? a = some node) :
    ∃ s, p.sites[a.root]? = some s ∧
      p.visits[p.number a]? = some ⟨node, p.number a, a.up?.map p.number,
        s.expr.aroundAt p.prototypes s.around a.steps, s.scope⟩ := by
  obtain ⟨e, he, hnode⟩ := node?_eq_some.1 h
  have hroot := he
  rw [← sites_exprs, List.getElem?_map, Option.map_eq_some_iff] at hroot
  obtain ⟨s, hs, rfl⟩ := hroot
  refine ⟨s, hs, ?_⟩
  have hrow := Site.getElem?_row p.prototypes none hs (Expr.number_lt hnode) 0
  rw [sites_exprs] at hrow
  rw [visits_eq_row, number_of_root he, hrow, Expr.visits_node hnode, Nat.zero_add]
  unfold NodePath.up?
  split
  · rfl
  · have hup := number_of_root (a := ⟨a.root, a.steps.dropLast⟩) he
    rw [Option.map_some, hup]

end Program

/-! ## What the roots are there for -/

/-- Whether an expression must not be wrapped, for what is around it. -/
def Surroundings.protects (version : Version) (s : Surroundings) : Bool :=
  s.constContext || (version.restrictsLoopBounds && s.forHeader.isSome)

/-- What a command walks is read. It is told to stay constant only in an
initializer, and to be in the header of a `for` only outside of one. -/
def Command.Regular : Command → Prop
  | .expr around _ => around.isWritten = false ∧ around.constContext = false
  | .declare v => v.around.isWritten = false ∧ v.around.forHeader = none
  | .enter _ => True
  | .leave => True

theorem Command.Regular.sites {c : Command} (h : c.Regular) (version : Version) (s : WalkState) :
    (c.sites s).map (fun t => (t.around.isWritten, t.around.protects version)) =
      (c.guards version).map fun guard => (false, guard.1) := by
  cases c with
  | expr around e =>
    obtain ⟨hread, hconst⟩ := h
    simp [Command.sites, Command.guards, Surroundings.protects, hread, hconst]
  | declare v =>
    obtain ⟨hread, hheader⟩ := h
    simp [Command.sites, Command.guards, Surroundings.protects, Declarator.inner, hread, hheader,
      Function.comp_def]
  | enter o => rfl
  | leave => rfl

theorem VariableGroup.script_regular {around : Surroundings} (hread : around.isWritten = false)
    (hheader : around.forHeader = none) (kind : SymbolKind) (locate : Nat → DeclLocation)
    (g : VariableGroup) : ∀ c ∈ g.script around kind locate, c.Regular := by
  have hmembers : ∀ (vs : List Variable) (member : Nat),
      ∀ c ∈ g.scriptMembers around kind locate member vs, c.Regular := by
    intro vs
    induction vs with
    | nil => simp [scriptMembers]
    | cons v vs ih =>
      intro member
      rw [scriptMembers, List.forall_mem_cons]
      exact ⟨⟨hread, hheader⟩, ih _⟩
  exact hmembers g.members 0

theorem Expr.scriptOption_regular (around : Surroundings) (hread : around.isWritten = false)
    (hconst : around.constContext = false) (e : Option Expr) :
    ∀ c ∈ scriptOption around e, c.Regular := by
  cases e with
  | none => simp [scriptOption]
  | some e => simpa [scriptOption] using ⟨hread, hconst⟩

namespace Stmt

variable {around : Surroundings}

mutual

theorem script_regular (hread : around.isWritten = false) (hconst : around.constContext = false)
    (hheader : around.forHeader = none) : (s : Stmt) → (path : StmtPath) → (inList : Bool) →
    ∀ c ∈ s.script around path inList, c.Regular
  | .block stmts true, _, _ => by
    simpa [script, Command.Regular, List.forall_mem_append, or_imp, forall_and] using
      scriptAll_regular hread hconst hheader stmts _ _
  | .block stmts false, _, _ => by
    simpa [script] using scriptAll_regular hread hconst hheader stmts _ _
  | .decl group, _, _ => by
    rw [script]
    exact group.script_regular hread hheader _ _
  | .expr value, _, _ => by simp [script, Command.Regular, hread, hconst]
  | .ifThen cond thenBranch, _, _ => by
    simpa [script, Command.Regular, hread, hconst, or_imp, forall_and] using
      script_regular hread hconst hheader thenBranch _ _
  | .ifElse cond thenBranch elseBranch, _, _ => by
    simpa [script, Command.Regular, hread, hconst, or_imp, forall_and] using
      ⟨script_regular hread hconst hheader thenBranch _ _,
        script_regular hread hconst hheader elseBranch _ _⟩
  | .forLoop init guard increment body, _, _ => by
    have hguard := Expr.scriptOption_regular { around with forHeader := some .guard } hread hconst
      guard
    have hincrement := Expr.scriptOption_regular { around with forHeader := some .increment } hread
      hconst increment
    simpa [script, Command.Regular, or_imp, forall_and] using
      ⟨script_regular hread hconst hheader init _ _, hguard, hincrement,
        script_regular hread hconst hheader body _ _⟩
  | .whileLoop cond body, _, _ => by
    simpa [script, Command.Regular, hread, hconst, or_imp, forall_and] using
      script_regular hread hconst hheader body _ _
  | .doWhile body cond, _, _ => by
    simpa [script, Command.Regular, hread, hconst, or_imp, forall_and] using
      script_regular hread hconst hheader body _ _
  | .ret value, _, _ => by
    rw [script]
    exact Expr.scriptOption_regular around hread hconst value
  | .breakLoop, _, _ => by simp [script]
  | .continueLoop, _, _ => by simp [script]
  | .discard, _, _ => by simp [script]
  | .empty, _, _ => by simp [script]

theorem scriptAll_regular (hread : around.isWritten = false)
    (hconst : around.constContext = false) (hheader : around.forHeader = none) :
    (ss : List Stmt) → (path : StmtPath) → (slot : Nat) →
    ∀ c ∈ scriptAll around ss path slot, c.Regular
  | [], _, _ => by simp [scriptAll]
  | s :: ss, _, _ => by
    rw [scriptAll, List.forall_mem_append]
    exact ⟨script_regular hread hconst hheader s _ _, scriptAll_regular hread hconst hheader ss _ _⟩

end

end Stmt

theorem Parameter.scriptAll_regular (function index : Nat) (qs : List Parameter) :
    ∀ c ∈ scriptAll function index qs, c.Regular := by
  induction qs generalizing index with
  | nil => simp [scriptAll]
  | cons q qs ih =>
    cases h : q.name with
    | none => simpa [scriptAll, h] using ih (index + 1)
    | some name =>
      rw [scriptAll, h, List.forall_mem_cons]
      exact ⟨⟨rfl, rfl⟩, ih _⟩

theorem Declaration.script_regular (version : Version) (index : Nat) (d : Declaration) :
    ∀ c ∈ d.script version index, c.Regular := by
  cases d with
  | «variables» group => exact group.script_regular rfl rfl _ _
  | function f =>
    have hbody : ∀ c ∈ Stmt.scriptAll { Surroundings.plain with function := some index }
        f.body.stmts ⟨index, []⟩ 0, c.Regular :=
      Stmt.scriptAll_regular rfl rfl rfl f.body.stmts ⟨index, []⟩ 0
    simpa [script, Function.script, Command.Regular, or_imp, forall_and] using
      ⟨Parameter.scriptAll_regular index 0 f.prototype.parameters, hbody⟩
  | prototype head => simp [script]

namespace Program

theorem script_regular (p : Program) : ∀ c ∈ p.script, c.Regular := by
  have hall : ∀ (ds : List Declaration) (index : Nat),
      ∀ c ∈ Declaration.scriptAll p.version index ds, c.Regular := by
    intro ds
    induction ds with
    | nil => simp [Declaration.scriptAll]
    | cons d ds ih =>
      intro index
      rw [Declaration.scriptAll, List.forall_mem_append]
      exact ⟨d.script_regular p.version index, ih _⟩
  exact hall p.declarations 0

/-- The roots of a program are read, and those that have to stay are the ones
whose surroundings say so. -/
theorem sites_around (p : Program) :
    p.sites.map (fun s => (s.around.isWritten, s.around.protects p.version)) =
      p.roots.map fun root => (false, root.1.isProtected p.version) := by
  have hall : ∀ (cs : List Command) (s : WalkState), (∀ c ∈ cs, c.Regular) →
      (Command.sitesAll cs s).map (fun t => (t.around.isWritten, t.around.protects p.version)) =
        (cs.flatMap (Command.guards p.version)).map fun guard => (false, guard.1) := by
    intro cs
    induction cs with
    | nil => exact fun _ _ => rfl
    | cons c cs ih =>
      intro s h
      rw [List.forall_mem_cons] at h
      rw [Command.sitesAll, List.map_append, h.1.sites, ih _ h.2, List.flatMap_cons,
        List.map_append]
  rw [sites, hall _ _ p.script_regular, script_guards, List.map_map]
  rfl

end Program

end ShaderMorph
