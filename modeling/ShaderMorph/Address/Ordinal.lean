-- Expressions by number. The expressions of a program are counted in one
-- fixed order: declarations and statements as they are written, an
-- expression before its parts, and the parts in order. The same order is
-- told twice: as the list of all expressions, and as a search that counts
-- down to the one asked for and stops there.
import ShaderMorph.Address.Place
import ShaderMorph.Shader.Program

namespace ShaderMorph

/-! ## All expressions in order -/

namespace Expr

mutual

/-- An expression and everything inside it, each before its parts. -/
def preorder : Expr → List Expr
  | .ident name => [.ident name]
  | .literal value => [.literal value]
  | .binary op lhs rhs => .binary op lhs rhs :: (lhs.preorder ++ rhs.preorder)
  | .unary op operand => .unary op operand :: operand.preorder
  | .member base name => .member base name :: base.preorder
  | .index base position => .index base position :: (base.preorder ++ position.preorder)
  | .call callee args => .call callee args :: preorderAll args
  | .ternary cond thenExpr elseExpr =>
    .ternary cond thenExpr elseExpr ::
      (cond.preorder ++ thenExpr.preorder ++ elseExpr.preorder)
  | .paren inner => .paren inner :: inner.preorder

def preorderAll : List Expr → List Expr
  | [] => []
  | e :: es => e.preorder ++ preorderAll es

end

end Expr

/-- The expressions in the initializers of a group. -/
def VariableGroup.exprs (g : VariableGroup) : List Expr := g.initializers.flatMap Expr.preorder

namespace Stmt

mutual

/-- The expressions in a statement. -/
def exprs : Stmt → List Expr
  | .block stmts _ => exprsAll stmts
  | .decl group => group.exprs
  | .expr value => value.preorder
  | .ifThen cond thenBranch => cond.preorder ++ thenBranch.exprs
  | .ifElse cond thenBranch elseBranch =>
    cond.preorder ++ thenBranch.exprs ++ elseBranch.exprs
  | .forLoop init guard increment body =>
    init.exprs ++ guard.toList.flatMap Expr.preorder ++
      increment.toList.flatMap Expr.preorder ++ body.exprs
  | .whileLoop cond body => cond.preorder ++ body.exprs
  | .doWhile body cond => body.exprs ++ cond.preorder
  | .ret value => value.toList.flatMap Expr.preorder
  | .breakLoop => []
  | .continueLoop => []
  | .discard => []
  | .empty => []

def exprsAll : List Stmt → List Expr
  | [] => []
  | s :: ss => s.exprs ++ exprsAll ss

end

end Stmt

def Declaration.exprs : Declaration → List Expr
  | .variables group => group.exprs
  | .function f => Stmt.exprsAll f.body.stmts
  | .prototype _ => []

namespace Program

/-- Every expression of a program, in order. -/
def exprs (p : Program) : List Expr := p.declarations.flatMap Declaration.exprs

def exprCount (p : Program) : Nat := p.exprs.length

/-- The expression with this number. -/
def exprAt? (p : Program) (ordinal : Nat) : Option Expr := p.exprs[ordinal]?

end Program

/-! ## Searching for one expression -/

/-- How a search through an `α` went: it found the place asked for, or it
passed everything and `left` expressions are still to be passed. -/
inductive Search (α : Type)
  | found (place : Place Expr α)
  | passed (left : Nat)

namespace Search

def map (f : α → β) : Search α → Search β
  | .found place => .found (place.map f)
  | .passed left => .passed left

/-- Search on in what follows, when nothing was found yet. -/
def orElse (s : Search α) (next : Nat → Search α) : Search α :=
  match s with
  | .found place => .found place
  | .passed left => next left

def place? : Search α → Option (Place Expr α)
  | .found place => some place
  | .passed _ => none

end Search

namespace Expr

mutual

/-- Search an expression for its node number `k`, itself being number 0. -/
def search : (e : Expr) → (k : Nat) → Search Expr
  | e, 0 => .found (.whole e)
  | .ident _, k + 1 => .passed k
  | .literal _, k + 1 => .passed k
  | .binary op lhs rhs, k + 1 =>
    ((lhs.search k).map (.binary op · rhs)).orElse fun k =>
      (rhs.search k).map (.binary op lhs ·)
  | .unary op operand, k + 1 => (operand.search k).map (.unary op ·)
  | .member base name, k + 1 => (base.search k).map (.member · name)
  | .index base position, k + 1 =>
    ((base.search k).map (.index · position)).orElse fun k =>
      (position.search k).map (.index base ·)
  | .call callee args, k + 1 => (searchAll args k).map (.call callee ·)
  | .ternary cond thenExpr elseExpr, k + 1 =>
    ((cond.search k).map (.ternary · thenExpr elseExpr)).orElse fun k =>
      ((thenExpr.search k).map (.ternary cond · elseExpr)).orElse fun k =>
        (elseExpr.search k).map (.ternary cond thenExpr ·)
  | .paren inner, k + 1 => (inner.search k).map .paren

def searchAll : (es : List Expr) → (k : Nat) → Search (List Expr)
  | [], k => .passed k
  | e :: es, k =>
    ((e.search k).map (· :: es)).orElse fun k => (searchAll es k).map (e :: ·)

end

/-- Search an expression that may be missing. -/
def searchOption : Option Expr → Nat → Search (Option Expr)
  | none, k => .passed k
  | some e, k => (e.search k).map some

end Expr

/-- Search the initializers of variables. -/
def Variable.searchAll : List Variable → Nat → Search (List Variable)
  | [], k => .passed k
  | v :: vs, k =>
    ((Expr.searchOption v.initializer k).map fun e => { v with initializer := e } :: vs).orElse
      fun k => (searchAll vs k).map (v :: ·)

def VariableGroup.search (g : VariableGroup) (k : Nat) : Search VariableGroup :=
  (Variable.searchAll g.members k).map fun members => { g with members }

namespace Stmt

mutual

/-- Search the expressions of a statement. -/
def search : (s : Stmt) → (k : Nat) → Search Stmt
  | .block stmts opensFrame, k => (searchAll stmts k).map (.block · opensFrame)
  | .decl group, k => (group.search k).map .decl
  | .expr value, k => (value.search k).map .expr
  | .ifThen cond thenBranch, k =>
    ((cond.search k).map (.ifThen · thenBranch)).orElse fun k =>
      (thenBranch.search k).map (.ifThen cond ·)
  | .ifElse cond thenBranch elseBranch, k =>
    ((cond.search k).map (.ifElse · thenBranch elseBranch)).orElse fun k =>
      ((thenBranch.search k).map (.ifElse cond · elseBranch)).orElse fun k =>
        (elseBranch.search k).map (.ifElse cond thenBranch ·)
  | .forLoop init guard increment body, k =>
    ((init.search k).map (.forLoop · guard increment body)).orElse fun k =>
      ((Expr.searchOption guard k).map (.forLoop init · increment body)).orElse fun k =>
        ((Expr.searchOption increment k).map (.forLoop init guard · body)).orElse fun k =>
          (body.search k).map (.forLoop init guard increment ·)
  | .whileLoop cond body, k =>
    ((cond.search k).map (.whileLoop · body)).orElse fun k =>
      (body.search k).map (.whileLoop cond ·)
  | .doWhile body cond, k =>
    ((body.search k).map (.doWhile · cond)).orElse fun k =>
      (cond.search k).map (.doWhile body ·)
  | .ret value, k => (Expr.searchOption value k).map .ret
  | .breakLoop, k => .passed k
  | .continueLoop, k => .passed k
  | .discard, k => .passed k
  | .empty, k => .passed k

def searchAll : (ss : List Stmt) → (k : Nat) → Search (List Stmt)
  | [], k => .passed k
  | s :: ss, k =>
    ((s.search k).map (· :: ss)).orElse fun k => (searchAll ss k).map (s :: ·)

end

end Stmt

namespace Declaration

def search : Declaration → Nat → Search Declaration
  | .variables group, k => (group.search k).map .variables
  | .function f, k =>
    (Stmt.searchAll f.body.stmts k).map fun stmts =>
      .function { f with body := { f.body with stmts } }
  | .prototype _, k => .passed k

def searchAll : List Declaration → Nat → Search (List Declaration)
  | [], k => .passed k
  | d :: ds, k =>
    ((d.search k).map (· :: ds)).orElse fun k => (searchAll ds k).map (d :: ·)

end Declaration

namespace Program

/-- The place of the expression with this number, found by counting down. -/
def exprPlace? (p : Program) (ordinal : Nat) : Option (Place Expr Program) :=
  ((Declaration.searchAll p.declarations ordinal).map
    fun declarations => { p with declarations }).place?

/-- The program with another expression where the numbered one stands. -/
def replaceExpr? (p : Program) (ordinal : Nat) (e : Expr) : Option Program :=
  (p.exprPlace? ordinal).map (·.put e)

end Program

end ShaderMorph
