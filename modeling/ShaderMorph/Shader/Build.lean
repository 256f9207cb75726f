-- Short ways to write down programs and their parts.
import ShaderMorph.Shader.Program

namespace ShaderMorph

/-! ## Expressions -/

namespace Expr

def bool (value : Bool) : Expr := .literal (.bool value)

def int (value : Int) : Expr := .literal (.int value)

def uint (value : Nat) : Expr := .literal (.uint value)

def float (value : Binary64) : Expr := .literal (.float value)

def assign (lhs rhs : Expr) : Expr := .binary .assign lhs rhs

end Expr

/-! ## Variables and parameters -/

/-- A variable that is no array and has no initializer. -/
def Variable.plain (name : String) : Variable := ⟨name, none, none⟩

def Variable.initialized (name : String) (value : Expr) : Variable := ⟨name, none, some value⟩

def Variable.array (name : String) (size : Nat) : Variable := ⟨name, some size, none⟩

/-- A group without qualifiers. -/
def VariableGroup.plain (baseType : DataType) (members : List Variable) : VariableGroup :=
  ⟨[], baseType, members⟩

def Parameter.named (type : DataType) (name : String) (mode : ParameterMode) : Parameter :=
  ⟨some name, type, mode, none⟩

/-! ## Statements -/

namespace Stmt

def declare (type : DataType) (name : String) : Stmt := .decl (.plain type [.plain name])

def declareAs (type : DataType) (name : String) (value : Expr) : Stmt :=
  .decl (.plain type [.initialized name value])

/-- A block with a frame of its own. -/
def braces (stmts : List Stmt) : Stmt := .block stmts true

end Stmt

/-! ## The top level -/

namespace Declaration

/-- A function whose body shares the frame of the parameters. -/
def define (returnType : DataType) (name : String) (parameters : List Parameter)
    (stmts : List Stmt) : Declaration :=
  .function ⟨⟨name, returnType, parameters⟩, ⟨stmts, false⟩⟩

def globals (type : DataType) (members : List Variable) : Declaration :=
  .variables (.plain type members)

def uniform (type : DataType) (name : String) : Declaration :=
  .variables ⟨[.uniform], type, [.plain name]⟩

end Declaration

end ShaderMorph
