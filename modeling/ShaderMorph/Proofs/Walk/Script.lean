-- The walk as a straight line. The walk goes down into statements and hands
-- scopes up and down on its way. Written out, it is a list of commands for a
-- machine that keeps the scopes it has to come back to on a stack. The laws
-- of the walk are proved on that list, one command at a time.
import ShaderMorph.Proofs.Address.Rewriting
import ShaderMorph.Walk.Walk

namespace ShaderMorph

/-! ## Commands -/

/-- A variable that is about to be declared. -/
structure Declarator where
  around : Surroundings
  kind : SymbolKind
  location : DeclLocation
  isConst : Bool
  type : DataType
  name : String
  initializer : Option Expr

/-- One command of a walk. -/
inductive Command
  /-- Walk an expression that is no part of another one. -/
  | expr (around : Surroundings) (e : Expr)
  /-- Number a variable, walk its initializer, and bind it. -/
  | declare (v : Declarator)
  /-- Keep the scope, and open a frame in it or not. -/
  | enter (opensFrame : Bool)
  /-- Go back to the scope kept last. -/
  | leave

/-- How far the machine has come. -/
structure WalkState where
  scope : ScopeTree
  kept : List ScopeTree
  ordinal : Nat
  id : Nat

/-- The state at the start of a program. -/
def WalkState.start : WalkState := ⟨.empty, [], 0, 0⟩

/-- What the walk meets in an expression that may be missing. -/
def Expr.visitsOption (heads : List Prototype) (scope : ScopeTree) (around : Surroundings)
    (e : Option Expr) (k : Nat) : List Visit :=
  match e with
  | none => []
  | some e => e.visits heads scope around none k

namespace Declarator

/-- The surroundings of the initializer of the variable with this id. -/
def inner (v : Declarator) (id : Nat) : Surroundings :=
  { v.around with constContext := v.around.constContext || v.isConst, initializerOf := some id }

def symbol (v : Declarator) (s : WalkState) : Symbol :=
  ⟨v.name, s.id, v.type, s.scope.depth, v.kind⟩

/-- The declaration as the walk meets it. -/
def declared (v : Declarator) (s : WalkState) : Declared :=
  ⟨v.symbol s, v.location, v.isConst, (s.scope.lookupInCurrentFrame v.name).isSome, s.scope⟩

def visits (heads : List Prototype) (v : Declarator) (s : WalkState) : List Visit :=
  Expr.visitsOption heads s.scope (v.inner s.id) v.initializer s.ordinal

end Declarator

namespace Command

/-- What is met when a command is carried out. -/
def events (heads : List Prototype) (s : WalkState) : Command → List Event
  | .expr around e => (e.visits heads s.scope around none s.ordinal).map .visit
  | .declare v => (v.visits heads s).map .visit ++ [.declare (v.declared s)]
  | .enter _ => []
  | .leave => []

/-- The state after a command. -/
def next (s : WalkState) : Command → WalkState
  | .expr _ e => { s with ordinal := s.ordinal + e.size }
  | .declare v =>
    { s with
      scope := s.scope.shadow (v.symbol s)
      ordinal := s.ordinal + Expr.sizeOption v.initializer
      id := s.id + 1 }
  | .enter opensFrame =>
    { s with
      scope := if opensFrame then s.scope.enter else s.scope
      kept := s.scope :: s.kept }
  | .leave =>
    match s.kept with
    | [] => s
    | scope :: kept => { s with scope, kept }

/-- What is met when commands are carried out one after the other. -/
def run (heads : List Prototype) : List Command → WalkState → List Event
  | [], _ => []
  | c :: cs, s => c.events heads s ++ run heads cs (c.next s)

/-- The state after all commands. -/
def final (cs : List Command) (s : WalkState) : WalkState := cs.foldl next s

@[simp] theorem final_nil (s : WalkState) : final [] s = s := rfl

@[simp] theorem final_cons (c : Command) (cs : List Command) (s : WalkState) :
    final (c :: cs) s = final cs (c.next s) := rfl

theorem final_append (cs ds : List Command) (s : WalkState) :
    final (cs ++ ds) s = final ds (final cs s) := List.foldl_append

theorem run_append (heads : List Prototype) (cs ds : List Command) (s : WalkState) :
    run heads (cs ++ ds) s = run heads cs s ++ run heads ds (final cs s) := by
  induction cs generalizing s with
  | nil => rfl
  | cons c cs ih => simp [run, ih, List.append_assoc]

end Command

/-! ## The script of a program -/

/-- Walk an expression that may be missing. -/
def Expr.scriptOption (around : Surroundings) (e : Option Expr) : List Command :=
  e.toList.map (.expr around)

/-- The declarator of a member of a group. -/
def VariableGroup.declarator (around : Surroundings) (kind : SymbolKind)
    (locate : Nat → DeclLocation) (g : VariableGroup) (member : Nat) (v : Variable) :
    Declarator :=
  ⟨around, kind, locate member, g.isConst, g.memberType v, v.name, v.initializer⟩

def VariableGroup.scriptMembers (around : Surroundings) (kind : SymbolKind)
    (locate : Nat → DeclLocation) (g : VariableGroup) : Nat → List Variable → List Command
  | _, [] => []
  | member, v :: vs =>
    .declare (g.declarator around kind locate member v) ::
      g.scriptMembers around kind locate (member + 1) vs

def VariableGroup.script (around : Surroundings) (kind : SymbolKind)
    (locate : Nat → DeclLocation) (g : VariableGroup) : List Command :=
  g.scriptMembers around kind locate 0 g.members

namespace Stmt

mutual

def script (around : Surroundings) : (s : Stmt) → (path : StmtPath) → (inList : Bool) →
    List Command
  | .block stmts opensFrame, path, _ =>
    if opensFrame then .enter true :: (scriptAll around stmts path 0 ++ [.leave])
    else scriptAll around stmts path 0
  | .decl group, path, inList =>
    group.script around .local (if inList then .block path else .nested path)
  | .expr value, _, _ => [.expr around value]
  | .ifThen cond thenBranch, path, _ =>
    .expr around cond :: .enter false :: (thenBranch.script around (path.child 0) false ++ [.leave])
  | .ifElse cond thenBranch elseBranch, path, _ =>
    .expr around cond :: .enter false ::
      (thenBranch.script around (path.child 0) false ++
        .leave :: .enter false :: (elseBranch.script around (path.child 1) false ++ [.leave]))
  | .forLoop init guard increment body, path, _ =>
    .enter true ::
      (init.script around (path.child 0) false ++
        (Expr.scriptOption { around with forHeader := some .guard } guard ++
          (Expr.scriptOption { around with forHeader := some .increment } increment ++
            (body.script around (path.child 1) false ++ [.leave]))))
  | .whileLoop cond body, path, _ =>
    .expr around cond :: .enter false :: (body.script around (path.child 0) false ++ [.leave])
  | .doWhile body cond, path, _ =>
    .enter false :: (body.script around (path.child 0) false ++ [.leave, .expr around cond])
  | .ret value, _, _ => Expr.scriptOption around value
  | .breakLoop, _, _ => []
  | .continueLoop, _, _ => []
  | .discard, _, _ => []
  | .empty, _, _ => []

def scriptAll (around : Surroundings) : (ss : List Stmt) → (path : StmtPath) → (slot : Nat) →
    List Command
  | [], _, _ => []
  | s :: ss, path, slot =>
    s.script around (path.child slot) true ++ scriptAll around ss path (slot + 1)

end

end Stmt

def Parameter.scriptAll (function : Nat) : (index : Nat) → List Parameter → List Command
  | _, [] => []
  | index, q :: qs =>
    match q.name with
    | none => scriptAll function (index + 1) qs
    | some name =>
      .declare ⟨.plain, .parameter, .parameter function index, false, q.fullType, name, none⟩ ::
        scriptAll function (index + 1) qs

/-- The body of a function sees its parameters, so its scope is the one that
they leave. -/
def Function.script (index : Nat) (f : Function) : List Command :=
  .enter true :: (Parameter.scriptAll index 0 f.prototype.parameters ++
    .enter f.body.opensFrame ::
      (Stmt.scriptAll { Surroundings.plain with function := some index }
        f.body.stmts ⟨index, []⟩ 0 ++
        [.leave, .leave]))

def Declaration.script (version : Version) (index : Nat) : Declaration → List Command
  | .variables group =>
    group.script { Surroundings.plain with constContext := version.requiresConstGlobals } .global
      (.global index)
  | .function f => f.script index
  | .prototype _ => []

def Declaration.scriptAll (version : Version) : (index : Nat) → List Declaration → List Command
  | _, [] => []
  | index, d :: ds => d.script version index ++ scriptAll version (index + 1) ds

/-- The walk over a program, written out. -/
def Program.script (p : Program) : List Command :=
  Declaration.scriptAll p.version 0 p.declarations

/-! ## The script is the walk -/

/-- The state of the machine at a position of the walk. -/
def WalkState.at (p : Position) (kept : List ScopeTree) : WalkState :=
  ⟨p.scope, kept, p.ordinal, p.id⟩

/-- The commands meet what a stretch of the walk meets and come out where it
does, whatever scopes are kept. -/
def Follows (heads : List Prototype) (cs : List Command) (walk : Position → Stretch) : Prop :=
  ∀ p kept, Command.run heads cs (.at p kept) = (walk p).events ∧
    Command.final cs (.at p kept) = .at (walk p).after kept

namespace Follows

open Command

variable {heads : List Prototype} {cs ds : List Command} {walk next : Position → Stretch}

theorem nil : Follows heads [] .empty := fun _ _ => ⟨rfl, rfl⟩

theorem append (h : Follows heads cs walk) (h' : Follows heads ds next) :
    Follows heads (cs ++ ds) fun p => (walk p).andThen next := by
  intro p kept
  obtain ⟨he, hf⟩ := h p kept
  obtain ⟨he', hf'⟩ := h' (walk p).after kept
  exact ⟨by rw [run_append, he, hf, he']; rfl, by rw [final_append, hf, hf']; rfl⟩

theorem next_enter (p : Position) (kept : List ScopeTree) (opensFrame : Bool) :
    (Command.enter opensFrame).next (.at p kept) =
      .at { p with scope := if opensFrame then p.scope.enter else p.scope } (p.scope :: kept) := rfl

theorem next_leave (p : Position) (scope : ScopeTree) (kept : List ScopeTree) :
    Command.leave.next (.at p (scope :: kept)) = .at { p with scope } kept := rfl

/-- What is declared between `enter` and `leave` is forgotten. -/
theorem within (opensFrame : Bool) (h : Follows heads cs walk) :
    Follows heads (.enter opensFrame :: (cs ++ [.leave])) fun p =>
      (walk { p with scope := if opensFrame then p.scope.enter else p.scope }).within p.scope := by
  intro p kept
  obtain ⟨he, hf⟩ := h { p with scope := if opensFrame then p.scope.enter else p.scope }
    (p.scope :: kept)
  constructor
  · rw [run, next_enter, run_append, he, hf, run, next_leave]
    simp [events, run, Stretch.within]
  · rw [final_cons, next_enter, final_append, hf, final_cons, next_leave]
    rfl

theorem expr (around : Surroundings) (e : Expr) :
    Follows heads [.expr around e] fun p => e.walk heads around p :=
  fun _ _ => ⟨List.append_nil _, rfl⟩

theorem exprOption (around : Surroundings) (e : Option Expr) :
    Follows heads (Expr.scriptOption around e) fun p => Expr.walkOption heads around e p := by
  cases e with
  | none => exact nil
  | some e => exact expr around e

/-- One declarator, before the rest of its group. -/
theorem declare (heads : List Prototype) (v : Declarator) :
    Follows heads [.declare v] fun p =>
      (Expr.walkOption heads (v.inner p.id) v.initializer { p with id := p.id + 1 }).andThen
        fun q => q.declare v.name p.id v.type v.kind v.location v.isConst := by
  intro p kept
  obtain ⟨around, kind, location, isConst, type, name, initializer⟩ := v
  cases initializer <;> exact ⟨List.append_nil _, rfl⟩

end Follows

/-! ## Groups and statements -/

theorem VariableGroup.follows_members (heads : List Prototype) (around : Surroundings)
    (kind : SymbolKind) (locate : Nat → DeclLocation) (g : VariableGroup) (member : Nat)
    (vs : List Variable) :
    Follows heads (g.scriptMembers around kind locate member vs)
      (g.walkMembers heads around kind locate member vs) := by
  induction vs generalizing member with
  | nil => exact .nil
  | cons v vs ih =>
    exact (Follows.declare heads (g.declarator around kind locate member v)).append (ih _)

theorem VariableGroup.follows (heads : List Prototype) (around : Surroundings)
    (kind : SymbolKind) (locate : Nat → DeclLocation) (g : VariableGroup) :
    Follows heads (g.script around kind locate) (g.walk heads around kind locate) :=
  g.follows_members heads around kind locate 0 g.members

namespace Stmt

variable (heads : List Prototype) (around : Surroundings)

mutual

theorem follows : (s : Stmt) → (path : StmtPath) → (inList : Bool) →
    Follows heads (s.script around path inList) (s.walk heads around path inList)
  | .block stmts true, path, inList => by
    simpa [script, walk] using (followsAll stmts path 0).within true
  | .block stmts false, path, inList => by
    simpa [script, walk] using followsAll stmts path 0
  | .decl group, path, inList => by
    simpa only [script, walk] using group.follows heads around .local _
  | .expr value, path, inList => by
    simpa only [script, walk] using .expr around value
  | .ifThen cond thenBranch, path, inList => by
    simpa [script, walk] using
      (Follows.expr around cond).append ((follows thenBranch (path.child 0) false).within false)
  | .ifElse cond thenBranch elseBranch, path, inList => by
    have h := ((Follows.expr around cond).append
      ((follows thenBranch (path.child 0) false).within false)).append
        ((follows elseBranch (path.child 1) false).within false)
    simpa [script, walk] using h
  | .forLoop init guard increment body, path, inList => by
    have h := ((((follows init (path.child 0) false).append
      (.exprOption { around with forHeader := some .guard } guard)).append
        (.exprOption { around with forHeader := some .increment } increment)).append
          (follows body (path.child 1) false)).within true
    simpa [script, walk] using h
  | .whileLoop cond body, path, inList => by
    simpa [script, walk] using
      (Follows.expr around cond).append ((follows body (path.child 0) false).within false)
  | .doWhile body cond, path, inList => by
    have h := ((follows body (path.child 0) false).within false).append (.expr around cond)
    simpa [script, walk] using h
  | .ret value, path, inList => by
    simpa only [script, walk] using .exprOption around value
  | .breakLoop, path, inList => by simpa only [script, walk] using .nil
  | .continueLoop, path, inList => by simpa only [script, walk] using .nil
  | .discard, path, inList => by simpa only [script, walk] using .nil
  | .empty, path, inList => by simpa only [script, walk] using .nil

theorem followsAll : (ss : List Stmt) → (path : StmtPath) → (slot : Nat) →
    Follows heads (scriptAll around ss path slot) (walkAll heads around ss path slot)
  | [], path, slot => by simpa only [scriptAll, walkAll] using .nil
  | s :: ss, path, slot => by
    simpa only [scriptAll, walkAll] using
      (follows s (path.child slot) true).append (followsAll ss path (slot + 1))

end

end Stmt

/-! ## Functions and programs -/

theorem Parameter.follows (heads : List Prototype) (function index : Nat) (qs : List Parameter) :
    Follows heads (scriptAll function index qs) (walkAll function index qs) := by
  induction qs generalizing index with
  | nil => exact .nil
  | cons q qs ih =>
    cases h : q.name with
    | none => simpa only [scriptAll, walkAll, h] using ih (index + 1)
    | some name =>
      have hq := Follows.declare heads
        ⟨.plain, .parameter, .parameter function index, false, q.fullType, name, none⟩
      simpa [scriptAll, walkAll, h, Expr.walkOption, Stretch.andThen, Stretch.empty]
        using hq.append (ih (index + 1))

theorem Function.follows (heads : List Prototype) (index : Nat) (f : Function) :
    Follows heads (f.script index) (f.walk heads index) := by
  have hbody := Stmt.followsAll heads { Surroundings.plain with function := some index }
    f.body.stmts ⟨index, []⟩ 0
  have h := ((Parameter.follows heads index 0 f.prototype.parameters).append
    (hbody.within f.body.opensFrame)).within true
  -- The scope after the body is forgotten twice, which makes no difference.
  intro p kept
  simpa [script, walk, Stretch.within, Stretch.andThen] using h p kept

theorem Declaration.follows (heads : List Prototype) (version : Version) (index : Nat)
    (ds : List Declaration) :
    Follows heads (scriptAll version index ds) (walkAll version heads index ds) := by
  induction ds generalizing index with
  | nil => exact .nil
  | cons d ds ih =>
    have hd : Follows heads (d.script version index) fun p =>
        match d with
        | .variables group =>
          group.walk heads { Surroundings.plain with constContext := version.requiresConstGlobals }
            .global (.global index) p
        | .function f => f.walk heads index p
        | .prototype _ => .empty p := by
      cases d with
      | «variables» group => exact group.follows heads _ .global _
      | function f => exact f.follows heads index
      | prototype head => exact .nil
    exact hd.append (ih (index + 1))

/-- The walk over a program meets what its script meets. -/
theorem Program.walk_eq_run (p : Program) :
    p.walk = Command.run p.prototypes p.script .start :=
  ((Declaration.follows p.prototypes p.version 0 p.declarations ⟨.empty, 0, 0⟩ []).1).symm

end ShaderMorph
