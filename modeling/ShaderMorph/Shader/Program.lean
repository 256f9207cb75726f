-- Programs: groups of variables, functions and their statements, under the
-- version they are written in.
import ShaderMorph.Shader.DataType
import ShaderMorph.Shader.Expr
import ShaderMorph.Shader.Version

namespace ShaderMorph

/-! ## Variables -/

/-- A word in front of a declaration. -/
inductive Qualifier
  | const | uniform | attribute | varying | input | output
  | flat | highp | mediump | lowp
deriving DecidableEq, Repr

def Qualifier.all : List Qualifier :=
  [.const, .uniform, .attribute, .varying, .input, .output, .flat, .highp, .mediump, .lowp]

/-- One declared variable of a group. -/
structure Variable where
  name : String
  arraySize : Option Nat
  initializer : Option Expr
deriving Repr

/-- Variables declared together, such as `const vec2 a, b[3];`. -/
structure VariableGroup where
  qualifiers : List Qualifier
  baseType : DataType
  members : List Variable
deriving Repr

/-- A type, or the array of that many values of it. -/
def DataType.sized (t : DataType) : Option Nat → DataType
  | none => t
  | some size => .array t (some size)

namespace VariableGroup

def isConst (g : VariableGroup) : Bool := g.qualifiers.contains .const

/-- The full type of a member, with its array shape. -/
def memberType (g : VariableGroup) (v : Variable) : DataType := g.baseType.sized v.arraySize

/-- The initializers of a group, in order. -/
def initializers (g : VariableGroup) : List Expr := g.members.filterMap (·.initializer)

end VariableGroup

/-! ## Functions -/

/-- A parameter; a parameter without a name cannot be used in the body. -/
structure Parameter where
  name : Option String
  type : DataType
  mode : ParameterMode
  arraySize : Option Nat
deriving Repr

/-- The full type of a parameter, with its array shape. -/
def Parameter.fullType (p : Parameter) : DataType := p.type.sized p.arraySize

/-- The head of a function. -/
structure Prototype where
  name : String
  returnType : DataType
  parameters : List Parameter
deriving Repr

/-! ## Statements -/

/-- A statement. A block may or may not open a frame of its own for the
names declared in it. -/
inductive Stmt
  | block (stmts : List Stmt) (opensFrame : Bool)
  | decl (group : VariableGroup)
  | expr (value : Expr)
  | ifThen (cond : Expr) (thenBranch : Stmt)
  | ifElse (cond : Expr) (thenBranch elseBranch : Stmt)
  | forLoop (init : Stmt) (guard increment : Option Expr) (body : Stmt)
  | whileLoop (cond : Expr) (body : Stmt)
  | doWhile (body : Stmt) (cond : Expr)
  | ret (value : Option Expr)
  | breakLoop
  | continueLoop
  | discard
  | empty
deriving Repr

/-- The body of a function. Its parameters have a frame already, so a body
that opens none shares theirs. -/
structure Body where
  stmts : List Stmt
  opensFrame : Bool
deriving Repr

/-- A function with its body. -/
structure Function where
  prototype : Prototype
  body : Body
deriving Repr

/-! ## Programs -/

inductive Declaration
  | variables (group : VariableGroup)
  | function (definition : Function)
  | prototype (head : Prototype)
deriving Repr

/-- A whole program. -/
structure Program where
  version : Version
  declarations : List Declaration
deriving Repr

/-- The head of a function that is declared or defined. -/
def Declaration.prototype? : Declaration → Option Prototype
  | .variables _ => none
  | .function f => some f.prototype
  | .prototype p => some p

/-- The group of variables that is declared. -/
def Declaration.group? : Declaration → Option VariableGroup
  | .variables g => some g
  | _ => none

def Declaration.function? : Declaration → Option Function
  | .function f => some f
  | _ => none

namespace Program

/-- Every head of a function, declared or defined, in order. -/
def prototypes (p : Program) : List Prototype := p.declarations.filterMap (·.prototype?)

/-- Every function with a body, in order. -/
def functions (p : Program) : List Function := p.declarations.filterMap (·.function?)

/-- Every group of variables at the top level, in order. -/
def groups (p : Program) : List VariableGroup := p.declarations.filterMap (·.group?)

/-- Every variable name declared at the top level, in order. -/
def globalNames (p : Program) : List String :=
  p.groups.flatMap fun g => g.members.map (·.name)

end Program

end ShaderMorph
