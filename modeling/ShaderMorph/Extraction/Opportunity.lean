-- Extractions as they are reported and asked for: which constituent is to be
-- taken out of which merged vector.
import ShaderMorph.Number.Decimal
import ShaderMorph.Shader.DataType

namespace ShaderMorph

/-- A constituent that can be taken out of a merged vector again. The
occurrence counts the merged vectors of the same name before this one. -/
structure Extraction where
  vector : String
  component : String
  type : DataType
  occurrence : Nat
deriving DecidableEq, Repr

namespace Extraction

/-- Whether two extractions take out the same thing, whatever its type. -/
def targets (a b : Extraction) : Bool :=
  a.vector == b.vector && a.component == b.component && a.occurrence == b.occurrence

def describe (x : Extraction) : String :=
  "extract " ++ x.type.text ++ " " ++ x.component ++ " from " ++ x.vector ++
    (if 0 < x.occurrence then " (declaration #" ++ Decimal.natural x.occurrence ++ ")" else "")

end Extraction

end ShaderMorph
