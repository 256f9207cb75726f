-- Expressions as one line of text. Operands that are operators between
-- operands themselves are put in brackets, so the text shows the shape.
import ShaderMorph.Number.Binary64Text
import ShaderMorph.Shader.Expr

namespace ShaderMorph

def Literal.text : Literal → String
  | .bool true => "true"
  | .bool false => "false"
  | .int value => Decimal.integer value
  | .uint value => Decimal.natural value ++ "u"
  | .float value => value.text

namespace Expr

/-- Whether an expression is put in brackets where it is an operand. -/
def needsBrackets : Expr → Bool
  | .binary _ _ _ => true
  | .ternary _ _ _ => true
  | _ => false

/-- The text of an operand, given the text of the expression. -/
def bracketed (e : Expr) (text : String) : String :=
  if e.needsBrackets then "(" ++ text ++ ")" else text

mutual

/-- The text of an expression. -/
def text : Expr → String
  | .ident name => name
  | .literal value => value.text
  | .binary op lhs rhs =>
    lhs.bracketed lhs.text ++ " " ++ op.symbol ++ " " ++ rhs.bracketed rhs.text
  | .unary op operand =>
    if op.isPostfix then operand.bracketed operand.text ++ op.symbol
    else op.symbol ++ operand.bracketed operand.text
  | .member base name => base.bracketed base.text ++ "." ++ name
  | .index base position => base.bracketed base.text ++ "[" ++ position.text ++ "]"
  | .call callee args => callee ++ "(" ++ textAll args ++ ")"
  | .ternary cond thenExpr elseExpr =>
    cond.bracketed cond.text ++ " ? " ++ thenExpr.bracketed thenExpr.text ++ " : " ++
      elseExpr.bracketed elseExpr.text
  | .paren inner => "(" ++ inner.text ++ ")"

/-- The texts of arguments, with commas between them. -/
def textAll : List Expr → String
  | [] => ""
  | [e] => e.text
  | e :: es => e.text ++ ", " ++ textAll es

end

end Expr

end ShaderMorph
