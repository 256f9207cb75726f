-- Types of expressions. An oracle answers the type of an expression in a
-- scope, or nothing when it cannot tell. The declared-type oracle answers
-- from declarations alone: the symbols in scope, literals, swizzles, indexing,
-- constructors, the functions that the program declares, and the operators.
import ShaderMorph.Scope.Tree
import ShaderMorph.Shader.Program
import ShaderMorph.Shader.Render
import ShaderMorph.Shader.Swizzle

namespace ShaderMorph

/-- Answers the type of an expression in a scope, when it can tell. -/
abbrev TypeOracle := Expr → ScopeTree → Option DataType

/-! ## Types of single steps -/

def Literal.type : Literal → DataType
  | .bool _ => .scalar .bool
  | .int _ => .scalar .int
  | .uint _ => .scalar .uint
  | .float _ => .scalar .float

namespace DataType

/-- The type of a member of a value that can be swizzled. -/
def memberOf? (scalarSwizzles : Bool) (base : DataType) (name : String) : Option DataType :=
  match base with
  | .scalar elem =>
    if scalarSwizzles then
      (Swizzle.parse? name 1).map fun s => .ofComponents elem s.length
    else none
  | .vector elem width => (Swizzle.parse? name width).map fun s => .ofComponents elem s.length
  | _ => none

/-- The type of an element of an array, a component of a vector or a column
of a matrix. -/
def elementOf? : DataType → Option DataType
  | .array inner _ => some inner
  | .vector elem _ => some (.scalar elem)
  | .matrix _ rows => some (.ofComponents .float rows)
  | _ => none

/-- The type of a sum or a product. A scalar goes with every component of a
vector or a matrix, and a matrix times a vector is a vector. -/
def arithmetic? (lhs rhs : DataType) : Option DataType :=
  if lhs = rhs then some lhs
  else
    match lhs, rhs with
    | .scalar _, .vector elem width => some (.vector elem width)
    | .scalar _, .matrix columns rows => some (.matrix columns rows)
    | .vector elem width, .scalar _ => some (.vector elem width)
    | .matrix columns rows, .scalar _ => some (.matrix columns rows)
    | .matrix _ rows, .vector _ _ => some (.ofComponents .float rows)
    | .vector _ _, .matrix columns _ => some (.ofComponents .float columns)
    | _, _ => none

end DataType

/-! ## The declared-type oracle -/

/-- What the declared-type oracle knows of a program: the heads of its
functions, and whether its version lets scalars be swizzled. -/
structure DeclaredTypes where
  heads : List Prototype
  scalarSwizzles : Bool
deriving Repr

namespace DeclaredTypes

/-- Knowing of no program. -/
def ofNothing : DeclaredTypes := ⟨[], false⟩

def ofProgram (p : Program) : DeclaredTypes := ⟨p.prototypes, p.version.hasScalarSwizzles⟩

/-- The type that a function of this name returns, by its first head. -/
def returnType? (d : DeclaredTypes) (name : String) : Option DataType :=
  (d.heads.find? (·.name == name)).map (·.returnType)

/-- The type of an expression in a scope. -/
def typeOf (d : DeclaredTypes) (scope : ScopeTree) : Expr → Option DataType
  | .ident name => (scope.lookup name).map (·.type)
  | .literal value => some value.type
  | .paren inner => d.typeOf scope inner
  | .member base name => do (← d.typeOf scope base).memberOf? d.scalarSwizzles name
  | .index base _ => do (← d.typeOf scope base).elementOf?
  | .call callee _ => (DataType.ofName? callee).or (d.returnType? callee)
  | .binary op lhs rhs =>
    if op.isAssignment then d.typeOf scope lhs
    else if op.isComparison || op.isLogical then some (.scalar .bool)
    else
      match op with
      | .comma => d.typeOf scope rhs
      | .shl | .shr => d.typeOf scope lhs
      | _ => do (← d.typeOf scope lhs).arithmetic? (← d.typeOf scope rhs)
  | .unary op operand => if op = .not then some (.scalar .bool) else d.typeOf scope operand
  | .ternary _ thenExpr _ => d.typeOf scope thenExpr

/-- The oracle that answers from these declarations. -/
def oracle (d : DeclaredTypes) : TypeOracle := fun e scope => d.typeOf scope e

end DeclaredTypes

/-- The declared-type oracle of a program. -/
def Program.declaredTypes (p : Program) : TypeOracle := (DeclaredTypes.ofProgram p).oracle

/-- The oracle that answers from a table of expression texts, and asks
another one about expressions that the table does not have. -/
def TypeOracle.ofTable (rows : List (String × Option DataType)) (fallback : TypeOracle) :
    TypeOracle := fun e scope =>
  match rows.find? (·.1 == e.text) with
  | some (_, answer) => answer
  | none => fallback e scope

/-- The oracle that never can tell. -/
def TypeOracle.unknown : TypeOracle := fun _ _ => none

end ShaderMorph
