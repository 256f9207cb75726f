-- How a caller can be out of order: applying what is no longer there, or
-- asking a random source for what it cannot give. Nothing is changed when
-- that happens.
import ShaderMorph.Walk.Site

namespace ShaderMorph

/-- A call that is out of order, by its cause. -/
inductive Breach
  /-- The expression that a mutation point was found at is not there. -/
  | stalePoint (ordinal : Nat) (text : String)
  /-- A scan does not report the extraction. -/
  | staleExtraction (description : String)
  /-- An access that a plan replaces is not there. -/
  | accessMoved (ordinal : Nat) (text : String)
  /-- The declaration that a plan puts another one before is not there. -/
  | vectorMissing (location : DeclLocation)
  /-- A declaration cannot be put there. -/
  | noSibling (name : String) (location : DeclLocation)
  /-- A random number below zero was asked for. -/
  | zeroBound
  /-- All canned numbers are used up. -/
  | cannedExhausted (bound : Nat)
  /-- The next canned number is too large. -/
  | cannedOutOfBound (value bound : Nat)
  /-- A random source answered a number that is not below the bound. -/
  | choiceOutOfRange (length choice : Nat)
deriving DecidableEq, Repr

/-- A path as fields with names. -/
def StmtPath.text (p : StmtPath) : String :=
  "StmtPath \x7b function: " ++ Decimal.natural p.function ++ ", steps: [" ++
    ", ".intercalate (p.steps.map Decimal.natural) ++ "] \x7d"

/-- A location as fields with names. -/
def DeclLocation.text : DeclLocation → String
  | .global declaration member =>
    "Global \x7b declaration: " ++ Decimal.natural declaration ++ ", member: " ++
      Decimal.natural member ++ " \x7d"
  | .block path member =>
    "Block \x7b path: " ++ path.text ++ ", member: " ++ Decimal.natural member ++ " \x7d"
  | .nested path member =>
    "Nested \x7b path: " ++ path.text ++ ", member: " ++ Decimal.natural member ++ " \x7d"
  | .parameter function index =>
    "Parameter \x7b function: " ++ Decimal.natural function ++ ", index: " ++
      Decimal.natural index ++ " \x7d"

/-- What is said about a call that is out of order. -/
def Breach.message : Breach → String
  | .stalePoint ordinal text =>
    "stale mutation point #" ++ Decimal.natural ordinal ++ " `" ++ text ++
      "`: expression no longer present"
  | .staleExtraction description =>
    "stale vectorization reduction opportunity: " ++ description
  | .accessMoved ordinal text =>
    "access #" ++ Decimal.natural ordinal ++ " `" ++ text ++ "` no longer present"
  | .vectorMissing location => "merged vector declaration not found at " ++ location.text
  | .noSibling name location => "cannot declare `" ++ name ++ "` next to " ++ location.text
  | .zeroBound => "next_int bound must be non-zero"
  | .cannedExhausted bound =>
    "canned random sequence exhausted (bound " ++ Decimal.natural bound ++ ")"
  | .cannedOutOfBound value bound =>
    "canned value " ++ Decimal.natural value ++ " out of bound " ++ Decimal.natural bound
  | .choiceOutOfRange length choice =>
    "index out of bounds: the len is " ++ Decimal.natural length ++ " but the index is " ++
      Decimal.natural choice

end ShaderMorph
