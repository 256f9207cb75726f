-- What a name stands for: a declared variable and where it is declared.
import ShaderMorph.Shader.DataType

namespace ShaderMorph

inductive SymbolKind
  | global
  | local
  | parameter
deriving DecidableEq, Repr

/-- A declared variable. The id is its place in the order in which one walk
meets the declarations; the depth is that of the frame it is declared in,
zero for the global one. -/
structure Symbol where
  name : String
  id : Nat
  type : DataType
  depth : Nat
  kind : SymbolKind
deriving DecidableEq, Repr

end ShaderMorph
