-- Statements by path. A path names a function, a statement of its body, and
-- then, step by step, one of the statements inside. The statements inside
-- are numbered in the order they are walked: those of a block, then and
-- else of a branch, the start and the body of a `for`, the body of a loop.
import ShaderMorph.Address.Place
import ShaderMorph.Shader.Program

namespace ShaderMorph

/-- The way to a statement: the place of its function among the declarations,
the place in the body, and the steps into nested statements. -/
structure StmtPath where
  function : Nat
  steps : List Nat
deriving DecidableEq, Repr

/-- The path one step further in. -/
def StmtPath.child (p : StmtPath) (slot : Nat) : StmtPath :=
  { p with steps := p.steps ++ [slot] }

namespace Stmt

/-- The statement directly inside another, by its number. -/
def childPlace? : Stmt → Nat → Option (Place Stmt Stmt)
  | .block stmts opensFrame, slot => (Place.ofIndex? stmts slot).map (·.map (.block · opensFrame))
  | .ifThen cond thenBranch, 0 => some ⟨thenBranch, (.ifThen cond ·)⟩
  | .ifElse cond thenBranch elseBranch, 0 => some ⟨thenBranch, (.ifElse cond · elseBranch)⟩
  | .ifElse cond thenBranch elseBranch, 1 => some ⟨elseBranch, (.ifElse cond thenBranch ·)⟩
  | .forLoop init guard increment body, 0 => some ⟨init, (.forLoop · guard increment body)⟩
  | .forLoop init guard increment body, 1 => some ⟨body, (.forLoop init guard increment ·)⟩
  | .whileLoop cond body, 0 => some ⟨body, (.whileLoop cond ·)⟩
  | .doWhile body cond, 0 => some ⟨body, (.doWhile · cond)⟩
  | _, _ => none

/-- The statement that a list of steps leads to. -/
def place? : Stmt → (steps : List Nat) → Option (Place Stmt Stmt)
  | s, [] => some (.whole s)
  | s, slot :: steps => do
    let child ← s.childPlace? slot
    let inner ← child.part.place? steps
    return inner.map child.put

end Stmt

namespace Program

/-- The body of the function at this place among the declarations. -/
def bodyPlace? (p : Program) (function : Nat) : Option (Place (List Stmt) Program) :=
  match p.declarations[function]? with
  | some (.function f) =>
    some ⟨f.body.stmts, fun stmts =>
      let changed : Declaration := .function { f with body := { f.body with stmts } }
      { p with declarations := p.declarations.set function changed }⟩
  | _ => none

/-- The statement that steps lead to, the first of them into the body. -/
def stmtPlace? (p : Program) (function : Nat) : (steps : List Nat) → Option (Place Stmt Program)
  | [] => none
  | first :: steps => do
    let body ← p.bodyPlace? function
    let top ← Place.ofIndex? body.part first
    let inner ← top.part.place? steps
    return (inner.map top.put).map body.put

/-- The list of statements that holds the statement at a path, and its place
in that list, which may be beyond the end. Only a body and a block hold such
a list, so the branch of an `if`, say, has none. -/
def stmtsPlace? (p : Program) (path : StmtPath) :
    Option (Place (List Stmt) Program × Nat) := do
  let last ← path.steps.getLast?
  match path.steps.dropLast with
  | [] =>
    let body ← p.bodyPlace? path.function
    return (body, last)
  | first :: steps =>
    let parent ← p.stmtPlace? path.function (first :: steps)
    match parent.part with
    | .block stmts opensFrame => return (⟨stmts, fun ss => parent.put (.block ss opensFrame)⟩, last)
    | _ => none

/-- The program with a statement put before the one at a path, or at the end
of the list when the path points just behind it. -/
def insertStmt? (p : Program) (path : StmtPath) (s : Stmt) : Option Program := do
  let (stmts, place) ← p.stmtsPlace? path
  if place ≤ stmts.part.length then some (stmts.put (stmts.part.insertIdx place s)) else none

end Program

end ShaderMorph
