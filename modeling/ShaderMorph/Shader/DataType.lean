-- The types that declarations and expressions have, how their names are
-- written, and which names are those of built-in types.
import ShaderMorph.Number.Decimal
import ShaderMorph.Text.Strip

namespace ShaderMorph

/-- The kind of a scalar, and of each component of a vector. -/
inductive ElementKind
  | float
  | int
  | uint
  | bool
deriving DecidableEq, Repr

namespace ElementKind

def text : ElementKind → String
  | .float => "float"
  | .int => "int"
  | .uint => "uint"
  | .bool => "bool"

/-- What the name of a vector of this kind begins with. -/
def vectorStem : ElementKind → String
  | .float => "vec"
  | .int => "ivec"
  | .uint => "uvec"
  | .bool => "bvec"

def isNumeric (k : ElementKind) : Bool := k != .bool

end ElementKind

/-- The type of a declaration or an expression. Samplers and images are
opaque: only their name is kept. -/
inductive DataType
  | void
  | scalar (kind : ElementKind)
  | vector (elem : ElementKind) (width : Nat)
  | matrix (columns rows : Nat)
  | array (inner : DataType) (size : Option Nat)
  | struct (name : String)
  | sampler (name : String)
deriving DecidableEq, Repr

namespace DataType

/-- The type of `width` components: a vector, or the scalar when there is
only one. -/
def ofComponents (elem : ElementKind) (width : Nat) : DataType :=
  if width = 1 then .scalar elem else .vector elem width

/-- The kind of the components. The components of a matrix are floats. -/
def element : DataType → Option ElementKind
  | .scalar kind => some kind
  | .vector elem _ => some elem
  | .matrix _ _ => some .float
  | _ => none

/-- The number of components of a scalar or a vector. -/
def width : DataType → Option Nat
  | .scalar _ => some 1
  | .vector _ width => some width
  | _ => none

def isVector : DataType → Bool
  | .vector _ _ => true
  | _ => false

def isNumeric : DataType → Bool
  | .scalar kind => kind.isNumeric
  | .vector elem _ => elem.isNumeric
  | .matrix _ _ => true
  | _ => false

/-- A scalar or a vector of booleans. -/
def isBoolean (t : DataType) : Bool := t.element == some .bool

/-! ## Names -/

/-- A type as it is written. A square matrix names its size once. -/
def text : DataType → String
  | .void => "void"
  | .scalar kind => kind.text
  | .vector elem width => elem.vectorStem ++ Decimal.natural width
  | .matrix columns rows =>
    if columns = rows then "mat" ++ Decimal.natural columns
    else "mat" ++ Decimal.natural columns ++ "x" ++ Decimal.natural rows
  | .array inner (some size) => inner.text ++ "[" ++ Decimal.natural size ++ "]"
  | .array inner none => inner.text ++ "[]"
  | .struct name => name
  | .sampler name => name

/-- The types whose names are single words of the language, vectors
included. -/
def simple : List DataType :=
  [.void, .scalar .float, .scalar .int, .scalar .uint, .scalar .bool] ++
    [ElementKind.float, .int, .uint, .bool].flatMap fun elem =>
      [2, 3, 4].map (.vector elem ·)

/-- One size of a matrix: a number from 2 to 4, with a plus sign or leading
zeros if it likes. -/
def readMatrixSize? (text : List Char) : Option Nat := do
  let size ← Decimal.readDigits? ((Text.dropStart? ['+'] text).getD text)
  if 2 ≤ size ∧ size ≤ 4 then some size else none

/-- The two sizes after the stem of a matrix name, columns first. A single
size stands for both. -/
def readMatrixSizes? (text : List Char) : Option (Nat × Nat) :=
  let columns := text.takeWhile (· != 'x')
  let rows :=
    match text.dropWhile (· != 'x') with
    | [] => columns
    | _ :: rows => rows
  match readMatrixSize? columns, readMatrixSize? rows with
  | some columns, some rows => some (columns, rows)
  | _, _ => none

/-- The built-in type with this name, which is also the name of its
constructor. -/
def ofName? (name : String) : Option DataType :=
  match simple.find? (·.text == name) with
  | some t => some t
  | none => do
    let sizes ← Text.dropStart? "mat".toList name.toList
    let (columns, rows) ← readMatrixSizes? sizes
    return .matrix columns rows

end DataType

end ShaderMorph
