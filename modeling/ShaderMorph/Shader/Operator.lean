-- The operators of expressions: their symbols, and which of them write to
-- an operand.

namespace ShaderMorph

/-- An operator between two operands, assignments and the comma included. -/
inductive BinaryOp
  | add | sub | mul | div | mod
  | lt | gt | le | ge | eq | ne
  | logicalAnd | logicalOr | logicalXor
  | bitAnd | bitOr | bitXor | shl | shr
  | comma
  | assign | addAssign | subAssign | mulAssign | divAssign | modAssign
  | bitAndAssign | bitOrAssign | bitXorAssign | shlAssign | shrAssign
deriving DecidableEq, Repr

namespace BinaryOp

def all : List BinaryOp :=
  [.add, .sub, .mul, .div, .mod, .lt, .gt, .le, .ge, .eq, .ne,
    .logicalAnd, .logicalOr, .logicalXor, .bitAnd, .bitOr, .bitXor, .shl, .shr, .comma,
    .assign, .addAssign, .subAssign, .mulAssign, .divAssign, .modAssign,
    .bitAndAssign, .bitOrAssign, .bitXorAssign, .shlAssign, .shrAssign]

def symbol : BinaryOp → String
  | .add => "+"
  | .sub => "-"
  | .mul => "*"
  | .div => "/"
  | .mod => "%"
  | .lt => "<"
  | .gt => ">"
  | .le => "<="
  | .ge => ">="
  | .eq => "=="
  | .ne => "!="
  | .logicalAnd => "&&"
  | .logicalOr => "||"
  | .logicalXor => "^^"
  | .bitAnd => "&"
  | .bitOr => "|"
  | .bitXor => "^"
  | .shl => "<<"
  | .shr => ">>"
  | .comma => ","
  | .assign => "="
  | .addAssign => "+="
  | .subAssign => "-="
  | .mulAssign => "*="
  | .divAssign => "/="
  | .modAssign => "%="
  | .bitAndAssign => "&="
  | .bitOrAssign => "|="
  | .bitXorAssign => "^="
  | .shlAssign => "<<="
  | .shrAssign => ">>="

/-- A plain or a compound assignment. Its left operand is written. -/
def isAssignment : BinaryOp → Bool
  | .assign | .addAssign | .subAssign | .mulAssign | .divAssign | .modAssign
  | .bitAndAssign | .bitOrAssign | .bitXorAssign | .shlAssign | .shrAssign => true
  | _ => false

def isComparison : BinaryOp → Bool
  | .lt | .gt | .le | .ge | .eq | .ne => true
  | _ => false

def isLogical : BinaryOp → Bool
  | .logicalAnd | .logicalOr | .logicalXor => true
  | _ => false

end BinaryOp

/-- An operator on one operand. -/
inductive UnaryOp
  | neg | plus | not | bitNot | preInc | preDec | postInc | postDec
deriving DecidableEq, Repr

namespace UnaryOp

def all : List UnaryOp :=
  [.neg, .plus, .not, .bitNot, .preInc, .preDec, .postInc, .postDec]

def symbol : UnaryOp → String
  | .neg => "-"
  | .plus => "+"
  | .not => "!"
  | .bitNot => "~"
  | .preInc | .postInc => "++"
  | .preDec | .postDec => "--"

/-- An increment or a decrement. Its operand is written. -/
def writesOperand : UnaryOp → Bool
  | .preInc | .preDec | .postInc | .postDec => true
  | _ => false

/-- Whether the symbol stands after the operand. -/
def isPostfix : UnaryOp → Bool
  | .postInc | .postDec => true
  | _ => false

end UnaryOp

/-- How a function uses a parameter. -/
inductive ParameterMode
  | input | output | inout
deriving DecidableEq, Repr

/-- Whether the function writes the argument that it is given. -/
def ParameterMode.writesArgument : ParameterMode → Bool
  | .input => false
  | .output | .inout => true

end ShaderMorph
