-- What a walk over a program tells about each place: where a variable is
-- declared, and in what surroundings an expression stands.
import ShaderMorph.Address.Path
import ShaderMorph.Scope.Tree
import ShaderMorph.Shader.Expr

namespace ShaderMorph

/-! ## Declarations -/

/-- Where a variable is declared. A declaration statement that stands in no
list of statements, the start of a `for` or a bare branch, is nested. -/
inductive DeclLocation
  | global (declaration member : Nat)
  | block (path : StmtPath) (member : Nat)
  | nested (path : StmtPath) (member : Nat)
  | parameter (function index : Nat)
deriving DecidableEq, Repr

namespace DeclLocation

/-- Whether another declaration can be put right before this one. -/
def acceptsSibling : DeclLocation → Bool
  | .global _ _ => true
  | .block _ _ => true
  | .nested _ _ => false
  | .parameter _ _ => false

/-- Whether `a` is in the group of `b`, at its place or before it. -/
def precedesInGroup : (a b : DeclLocation) → Bool
  | .global d m, .global d' m' => d == d' && m ≤ m'
  | .block p m, .block p' m' => p == p' && m ≤ m'
  | .nested p m, .nested p' m' => p == p' && m ≤ m'
  | _, _ => false

end DeclLocation

/-- A variable as the walk meets its declaration. The scope is the one just
before the variable is bound. -/
structure Declared where
  symbol : Symbol
  location : DeclLocation
  isConst : Bool
  /-- The innermost frame has the name already. -/
  redeclared : Bool
  scope : ScopeTree
deriving Repr

/-! ## Expressions -/

/-- The two parts of the head of a `for` that run in every round. -/
inductive ForHeaderSlot
  | guard
  | increment
deriving DecidableEq, Repr

/-- What an expression takes over from its surroundings. -/
structure Surroundings where
  /-- The value is written, not only read. -/
  isWritten : Bool
  /-- The expression must stay a constant one. -/
  constContext : Bool
  /-- The part of a `for` header that the expression belongs to. -/
  forHeader : Option ForHeaderSlot
  /-- The variable whose initializer the expression belongs to. -/
  initializerOf : Option Nat
  /-- The place, among the declarations, of the function around it. -/
  function : Option Nat
deriving DecidableEq, Repr

/-- No surroundings that matter. -/
def Surroundings.plain : Surroundings := ⟨false, false, none, none, none⟩

def Surroundings.read (s : Surroundings) : Surroundings := { s with isWritten := false }

def Surroundings.written (s : Surroundings) : Surroundings := { s with isWritten := true }

/-- An expression as the walk meets it: its number, the number of the
expression it is a direct part of, and the scope it stands in. -/
structure Visit where
  expr : Expr
  ordinal : Nat
  parent : Option Nat
  around : Surroundings
  scope : ScopeTree
deriving Repr

/-- Whether the expression is a direct part of another one. -/
def Visit.isOperand (v : Visit) : Bool := v.parent.isSome

/-- What the walk meets. -/
inductive Event
  | declare (d : Declared)
  | visit (v : Visit)
deriving Repr

end ShaderMorph
