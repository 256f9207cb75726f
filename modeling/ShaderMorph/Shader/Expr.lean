-- Expressions: their shape, their direct parts in order, and the number of
-- nodes they have.
import ShaderMorph.Number.Binary64
import ShaderMorph.Shader.Operator

namespace ShaderMorph

/-- A constant that is written out. -/
inductive Literal
  | bool (value : Bool)
  | int (value : Int)
  | uint (value : Nat)
  | float (value : Binary64)
deriving DecidableEq, Repr

/-- An expression. A member is a field of a struct or a swizzle of a vector;
a call is a call of a function or a constructor of a type. -/
inductive Expr
  | ident (name : String)
  | literal (value : Literal)
  | binary (op : BinaryOp) (lhs rhs : Expr)
  | unary (op : UnaryOp) (operand : Expr)
  | member (base : Expr) (name : String)
  | index (base position : Expr)
  | call (callee : String) (args : List Expr)
  | ternary (cond thenExpr elseExpr : Expr)
  | paren (inner : Expr)
deriving Repr

namespace Expr

/-- The direct parts of an expression, in the order of evaluation. -/
def children : Expr → List Expr
  | .ident _ => []
  | .literal _ => []
  | .binary _ lhs rhs => [lhs, rhs]
  | .unary _ operand => [operand]
  | .member base _ => [base]
  | .index base position => [base, position]
  | .call _ args => args
  | .ternary cond thenExpr elseExpr => [cond, thenExpr, elseExpr]
  | .paren inner => [inner]

/-- The name, when the expression is nothing but one. -/
def name? : Expr → Option String
  | .ident name => some name
  | _ => none

/-! ## Size -/

mutual

/-- The number of nodes of an expression, itself included. -/
def size : Expr → Nat
  | .ident _ => 1
  | .literal _ => 1
  | .binary _ lhs rhs => 1 + lhs.size + rhs.size
  | .unary _ operand => 1 + operand.size
  | .member base _ => 1 + base.size
  | .index base position => 1 + base.size + position.size
  | .call _ args => 1 + sizeAll args
  | .ternary cond thenExpr elseExpr => 1 + cond.size + thenExpr.size + elseExpr.size
  | .paren inner => 1 + inner.size

def sizeAll : List Expr → Nat
  | [] => 0
  | e :: es => e.size + sizeAll es

end

theorem size_pos (e : Expr) : 0 < e.size := by
  cases e <;> simp only [size] <;> omega

/-! ## Equality of values

Two expressions are the same when they are written alike, except that their
float literals are compared as numbers. -/

/-- Whether two literals are the same, floats as numbers. -/
def sameLiteral : Literal → Literal → Bool
  | .float x, .float y => x.sameNumber y
  | a, b => a == b

mutual

/-- Whether two expressions are the same, floats as numbers. -/
def same : Expr → Expr → Bool
  | .ident a, .ident b => a == b
  | .literal a, .literal b => sameLiteral a b
  | .binary op l r, .binary op' l' r' => op == op' && l.same l' && r.same r'
  | .unary op e, .unary op' e' => op == op' && e.same e'
  | .member e n, .member e' n' => e.same e' && n == n'
  | .index e i, .index e' i' => e.same e' && i.same i'
  | .call f args, .call f' args' => f == f' && sameAll args args'
  | .ternary c t e, .ternary c' t' e' => c.same c' && t.same t' && e.same e'
  | .paren e, .paren e' => e.same e'
  | _, _ => false

def sameAll : List Expr → List Expr → Bool
  | [], [] => true
  | e :: es, e' :: es' => e.same e' && sameAll es es'
  | _, _ => false

end

end Expr

end ShaderMorph
