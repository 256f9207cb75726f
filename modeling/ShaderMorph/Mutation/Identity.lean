-- Identities: the ways to put something around an expression that leave its
-- value as it is, and which of them suit a type.
import ShaderMorph.Shader.Build

namespace ShaderMorph

/-- A way to wrap an expression that keeps its value. -/
inductive Identity
  /-- Brackets around it. -/
  | parenthesize
  /-- Zero added. -/
  | addZero
  /-- Multiplied by one. -/
  | mulOne
  /-- Negated twice. -/
  | doubleNegation
  /-- Joined to `true` by a logical and. -/
  | andTrue
deriving DecidableEq, Repr

/-- Which families of identities are wanted. -/
structure IdentitySwitches where
  parenthesize : Bool
  arithmetic : Bool
  boolean : Bool
deriving DecidableEq, Repr

/-- All families. -/
def IdentitySwitches.all : IdentitySwitches := ⟨true, true, true⟩

namespace Identity

def all : List Identity := [.parenthesize, .addZero, .mulOne, .doubleNegation, .andTrue]

/-- The identities that are wanted and suit an expression of this type.
Brackets suit every type, also an unknown one. The boolean ones take a
scalar only. -/
def legalFor (switches : IdentitySwitches) (type : Option DataType) : List Identity :=
  let plain := if switches.parenthesize then [parenthesize] else []
  match type with
  | none => plain
  | some t =>
    plain ++ (if switches.arithmetic && t.isNumeric then [addZero, mulOne] else []) ++
      (if switches.boolean && t == .scalar .bool then [doubleNegation, andTrue] else [])

/-- The number zero or one, as a literal of this kind. Where the kind is not
that of whole numbers, it is a float. -/
def neutral (elem : Option ElementKind) (one : Bool) : Literal :=
  match elem with
  | some .int => .int (if one then 1 else 0)
  | some .uint => .uint (if one then 1 else 0)
  | _ => .float (.ofNatural (if one then 1 else 0))

/-- Wrap an expression whose components are of this kind. -/
def wrap (identity : Identity) (elem : Option ElementKind) (e : Expr) : Expr :=
  match identity with
  | .parenthesize => .paren e
  | .addZero => .binary .add (.paren e) (.literal (neutral elem false))
  | .mulOne => .binary .mul (.paren e) (.literal (neutral elem true))
  | .doubleNegation => .unary .not (.paren (.unary .not (.paren e)))
  | .andTrue => .binary .logicalAnd (.bool true) (.paren e)

end Identity

end ShaderMorph
