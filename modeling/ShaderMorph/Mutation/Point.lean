-- Mutation points: the expressions that can be wrapped in an identity. They
-- are the direct parts of other expressions that are only read and that need
-- not stay constant, outside the header of a `for` where the version binds
-- it. A point remembers what it was found at, and is stale where that is gone.
import ShaderMorph.Address.Ordinal
import ShaderMorph.Mutation.Identity
import ShaderMorph.Random.Source
import ShaderMorph.Typing.Oracle
import ShaderMorph.Walk.Walk

namespace ShaderMorph

/-- A place to wrap: its number, the expression found there, the type that
the oracle gave it, and the identities to choose from. -/
structure MutationPoint where
  ordinal : Nat
  snapshot : Expr
  type : Option DataType
  identities : List Identity
deriving Repr

namespace MutationPoint

def text (m : MutationPoint) : String := m.snapshot.text

def describe (m : MutationPoint) : String :=
  let place := "mutation point #" ++ Decimal.natural m.ordinal ++ " `" ++ m.text ++ "`"
  match m.type with
  | some t => place ++ " (" ++ t.text ++ ")"
  | none => place

/-! ## Finding -/

/-- Whether an expression stands where it may be wrapped. -/
def isOpen (version : Version) (v : Visit) : Bool :=
  v.isOperand && !v.around.isWritten && !v.around.constContext &&
    !(version.restrictsLoopBounds && v.around.forHeader.isSome)

/-- The mutation point at an expression, if it is one. -/
def ofVisit? (switches : IdentitySwitches) (oracle : TypeOracle) (version : Version)
    (v : Visit) : Option MutationPoint :=
  if isOpen version v then
    let type := oracle v.expr v.scope
    match Identity.legalFor switches type with
    | [] => none
    | identities => some ⟨v.ordinal, v.expr, type, identities⟩
  else none

end MutationPoint

namespace Program

/-- The mutation points of a program by an oracle, in order. -/
def mutationPointsBy (p : Program) (switches : IdentitySwitches) (oracle : TypeOracle) :
    List MutationPoint :=
  p.visits.filterMap (MutationPoint.ofVisit? switches oracle p.version)

/-- The mutation points of a program, typed from its declarations. -/
def mutationPoints (p : Program) (switches : IdentitySwitches) : List MutationPoint :=
  p.mutationPointsBy switches p.declaredTypes

end Program

/-! ## Applying -/

namespace MutationPoint

/-- The place of a point in a program, unless the point is stale there. -/
def place? (m : MutationPoint) (p : Program) : Option (Place Expr Program) := do
  let place ← p.exprPlace? m.ordinal
  if place.part.same m.snapshot then some place else none

/-- The program with one identity of a point around its expression. -/
def wrapAt (m : MutationPoint) (place : Place Expr Program) (identity : Identity) : Program :=
  place.put (identity.wrap (m.type.bind DataType.element) place.part)

/-- Wrap the expression of a point in an identity that the source chooses.
A point without identities is put in brackets. -/
def apply {σ : Type} [RandomSource σ] (m : MutationPoint) (p : Program) (source : σ) :
    Except Breach Program × σ :=
  match m.place? p with
  | none => (.error (.stalePoint m.ordinal m.text), source)
  | some place =>
    let (choice, source) := RandomSource.choose source m.identities
    (choice.map fun identity => m.wrapAt place (identity.getD .parenthesize), source)

end MutationPoint

end ShaderMorph
