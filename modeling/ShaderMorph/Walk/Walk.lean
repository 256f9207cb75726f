-- The walk over a program. It goes through everything once, in the order of
-- the expression numbers, and meets every declaration and every expression
-- together with the scope it stands in. A function opens a frame for its
-- parameters, and its body shares that frame unless it asks for one of its
-- own; so does a block; a `for` opens a frame around its header and body. An
-- initializer is walked before its variable is bound.
import ShaderMorph.Walk.Signature
import ShaderMorph.Walk.Site

namespace ShaderMorph

/-! ## Expressions -/

namespace Expr

mutual

/-- What the walk meets in an expression with number `k`. The surroundings
go down to its parts: what is written stays written through brackets, member
accesses and the indexed part of an index, and everything else is read. -/
def visits (heads : List Prototype) (scope : ScopeTree) :
    (e : Expr) → (around : Surroundings) → (parent : Option Nat) → (k : Nat) → List Visit
  | .ident name, around, parent, k => [⟨.ident name, k, parent, around, scope⟩]
  | .literal value, around, parent, k => [⟨.literal value, k, parent, around, scope⟩]
  | .binary op lhs rhs, around, parent, k =>
    let left := if op.isAssignment then around.written else around.read
    ⟨.binary op lhs rhs, k, parent, around, scope⟩ ::
      (lhs.visits heads scope left (some k) (k + 1) ++
        rhs.visits heads scope around.read (some k) (k + 1 + lhs.size))
  | .unary op operand, around, parent, k =>
    let inner := if op.writesOperand then around.written else around.read
    ⟨.unary op operand, k, parent, around, scope⟩ ::
      operand.visits heads scope inner (some k) (k + 1)
  | .member base name, around, parent, k =>
    ⟨.member base name, k, parent, around, scope⟩ ::
      base.visits heads scope around (some k) (k + 1)
  | .index base position, around, parent, k =>
    ⟨.index base position, k, parent, around, scope⟩ ::
      (base.visits heads scope around (some k) (k + 1) ++
        position.visits heads scope around.read (some k) (k + 1 + base.size))
  | .call callee args, around, parent, k =>
    ⟨.call callee args, k, parent, around, scope⟩ ::
      visitsArgs heads scope callee args.length args 0 around k (k + 1)
  | .ternary cond thenExpr elseExpr, around, parent, k =>
    ⟨.ternary cond thenExpr elseExpr, k, parent, around, scope⟩ ::
      (cond.visits heads scope around.read (some k) (k + 1) ++
        thenExpr.visits heads scope around.read (some k) (k + 1 + cond.size) ++
        elseExpr.visits heads scope around.read (some k)
          (k + 1 + cond.size + thenExpr.size))
  | .paren inner, around, parent, k =>
    ⟨.paren inner, k, parent, around, scope⟩ ::
      inner.visits heads scope around (some k) (k + 1)

/-- What the walk meets in the arguments of a call, from the one numbered
`i` on. The call itself has the number `caller`. -/
def visitsArgs (heads : List Prototype) (scope : ScopeTree) (callee : String) (arity : Nat) :
    (args : List Expr) → (i : Nat) → (around : Surroundings) → (caller k : Nat) → List Visit
  | [], _, _, _, _ => []
  | e :: es, i, around, caller, k =>
    let inner := if writesArgument heads callee arity i then around.written else around.read
    e.visits heads scope inner (some caller) k ++
      visitsArgs heads scope callee arity es (i + 1) around caller (k + e.size)

end

end Expr

/-! ## Statements and declarations -/

/-- How far the walk has come: the scope that holds from here on, and the
numbers of the next expression and the next declaration. -/
structure Position where
  scope : ScopeTree
  ordinal : Nat
  id : Nat
deriving Repr

/-- A stretch of the walk: what it met, and the position after it. -/
structure Stretch where
  events : List Event
  after : Position

namespace Stretch

/-- A stretch in which nothing is met. -/
def empty (p : Position) : Stretch := ⟨[], p⟩

/-- Walk on from where a stretch ended. -/
def andThen (s : Stretch) (next : Position → Stretch) : Stretch :=
  let t := next s.after
  ⟨s.events ++ t.events, t.after⟩

/-- A stretch whose frames and names end with it: the scope after it is the
one given. -/
def within (s : Stretch) (scope : ScopeTree) : Stretch :=
  ⟨s.events, { s.after with scope }⟩

end Stretch

/-- Walk an expression that is no part of another one. -/
def Expr.walk (heads : List Prototype) (around : Surroundings) (e : Expr) (p : Position) :
    Stretch :=
  ⟨(e.visits heads p.scope around none p.ordinal).map .visit,
    { p with ordinal := p.ordinal + e.size }⟩

/-- Walk an expression that may be missing. -/
def Expr.walkOption (heads : List Prototype) (around : Surroundings) :
    Option Expr → Position → Stretch
  | none, p => .empty p
  | some e, p => e.walk heads around p

/-- Meet the declaration of a variable and bind it. A second declaration of
a name in one frame is let through, and marked. -/
def Position.declare (p : Position) (name : String) (id : Nat) (type : DataType)
    (kind : SymbolKind) (location : DeclLocation) (isConst : Bool) : Stretch :=
  let symbol : Symbol := ⟨name, id, type, p.scope.depth, kind⟩
  let redeclared := (p.scope.lookupInCurrentFrame name).isSome
  ⟨[.declare ⟨symbol, location, isConst, redeclared, p.scope⟩],
    { p with scope := p.scope.shadow symbol }⟩

/-- Walk the members of a group, from the one numbered `member` on. Each gets
its id before its initializer is walked, and is bound after it. -/
def VariableGroup.walkMembers (heads : List Prototype) (around : Surroundings)
    (kind : SymbolKind) (locate : Nat → DeclLocation) (g : VariableGroup) :
    (member : Nat) → List Variable → Position → Stretch
  | _, [], p => .empty p
  | member, v :: vs, p =>
    let id := p.id
    let inner : Surroundings :=
      { around with
        constContext := around.constContext || g.isConst
        initializerOf := some id }
    ((Expr.walkOption heads inner v.initializer { p with id := id + 1 }).andThen fun p =>
      p.declare v.name id (g.memberType v) kind (locate member) g.isConst).andThen fun p =>
        g.walkMembers heads around kind locate (member + 1) vs p

/-- Walk a group of variables. `locate` tells where each member is. -/
def VariableGroup.walk (heads : List Prototype) (around : Surroundings) (kind : SymbolKind)
    (locate : Nat → DeclLocation) (g : VariableGroup) (p : Position) : Stretch :=
  g.walkMembers heads around kind locate 0 g.members p

namespace Stmt

mutual

/-- Walk one statement. `inList` tells whether it stands in a list of
statements. The scope after it holds for what follows it there. -/
def walk (heads : List Prototype) (around : Surroundings) :
    (s : Stmt) → (path : StmtPath) → (inList : Bool) → Position → Stretch
  | .block stmts opensFrame, path, _, p =>
    if opensFrame then
      (walkAll heads around stmts path 0 { p with scope := p.scope.enter }).within p.scope
    else walkAll heads around stmts path 0 p
  | .decl group, path, inList, p =>
    group.walk heads around .local (if inList then .block path else .nested path) p
  | .expr value, _, _, p => value.walk heads around p
  | .ifThen cond thenBranch, path, _, p =>
    (cond.walk heads around p).andThen fun p =>
      (thenBranch.walk heads around (path.child 0) false p).within p.scope
  | .ifElse cond thenBranch elseBranch, path, _, p =>
    ((cond.walk heads around p).andThen fun p =>
      (thenBranch.walk heads around (path.child 0) false p).within p.scope).andThen fun p =>
        (elseBranch.walk heads around (path.child 1) false p).within p.scope
  | .forLoop init guard increment body, path, _, p =>
    ((((init.walk heads around (path.child 0) false { p with scope := p.scope.enter }).andThen
      fun p => Expr.walkOption heads { around with forHeader := some .guard } guard p).andThen
        fun p =>
          Expr.walkOption heads { around with forHeader := some .increment } increment p).andThen
            fun p => body.walk heads around (path.child 1) false p).within p.scope
  | .whileLoop cond body, path, _, p =>
    (cond.walk heads around p).andThen fun p =>
      (body.walk heads around (path.child 0) false p).within p.scope
  | .doWhile body cond, path, _, p =>
    ((body.walk heads around (path.child 0) false p).within p.scope).andThen fun p =>
      cond.walk heads around p
  | .ret value, _, _, p => Expr.walkOption heads around value p
  | .breakLoop, _, _, p => .empty p
  | .continueLoop, _, _, p => .empty p
  | .discard, _, _, p => .empty p
  | .empty, _, _, p => .empty p

/-- Walk a list of statements, from the one numbered `slot` on. -/
def walkAll (heads : List Prototype) (around : Surroundings) :
    (ss : List Stmt) → (path : StmtPath) → (slot : Nat) → Position → Stretch
  | [], _, _, p => .empty p
  | s :: ss, path, slot, p =>
    (s.walk heads around (path.child slot) true p).andThen fun p =>
      walkAll heads around ss path (slot + 1) p

end

end Stmt

/-- Walk the parameters of the function at `function`, from the one numbered
`index` on. Parameters without a name are passed over. -/
def Parameter.walkAll (function : Nat) : (index : Nat) → List Parameter → Position → Stretch
  | _, [], p => .empty p
  | index, q :: qs, p =>
    match q.name with
    | none => walkAll function (index + 1) qs p
    | some name =>
      ({ p with id := p.id + 1 }.declare name p.id q.fullType .parameter
        (.parameter function index) false).andThen fun p => walkAll function (index + 1) qs p

/-- Walk the function at `index`: its parameters in a frame of theirs, then
its body. -/
def Function.walk (heads : List Prototype) (index : Nat) (f : Function) (p : Position) : Stretch :=
  let around : Surroundings := { Surroundings.plain with function := some index }
  ((Parameter.walkAll index 0 f.prototype.parameters { p with scope := p.scope.enter }).andThen
    fun p =>
      let scope := if f.body.opensFrame then p.scope.enter else p.scope
      Stmt.walkAll heads around f.body.stmts ⟨index, []⟩ 0 { p with scope }).within p.scope

/-- Walk the declarations of a program, from the one numbered `index` on. -/
def Declaration.walkAll (version : Version) (heads : List Prototype) :
    (index : Nat) → List Declaration → Position → Stretch
  | _, [], p => .empty p
  | index, d :: ds, p =>
    let first :=
      match d with
      | .variables group =>
        group.walk heads { Surroundings.plain with constContext := version.requiresConstGlobals }
          .global (.global index) p
      | .function f => f.walk heads index p
      | .prototype _ => .empty p
    first.andThen fun p => walkAll version heads (index + 1) ds p

namespace Program

/-- Everything that the walk over a program meets, in order. -/
def walk (p : Program) : List Event :=
  (Declaration.walkAll p.version p.prototypes 0 p.declarations ⟨.empty, 0, 0⟩).events

/-- The expressions that the walk meets. -/
def visits (p : Program) : List Visit :=
  p.walk.filterMap fun
    | .visit v => some v
    | .declare _ => none

/-- The declarations that the walk meets. -/
def declared (p : Program) : List Declared :=
  p.walk.filterMap fun
    | .visit _ => none
    | .declare d => some d

end Program

end ShaderMorph
