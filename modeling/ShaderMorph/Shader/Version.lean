-- The versions of the shading language. The version that a program is
-- written in decides which places must stay as they are.
import ShaderMorph.Text.Blank

namespace ShaderMorph

/-- A version of the shading language, or one of its dialects. -/
inductive Version
  | essl100
  | webgl1
  | essl300
  | essl310
  | essl320
  | webgl2
  | glsl110
  | glsl130
  | glsl330
  | glsl440
  | glsl450
deriving DecidableEq, Repr

namespace Version

def all : List Version :=
  [.essl100, .webgl1, .essl300, .essl310, .essl320, .webgl2,
    .glsl110, .glsl130, .glsl330, .glsl440, .glsl450]

def text : Version → String
  | .essl100 => "100"
  | .webgl1 => "webgl1"
  | .essl300 => "300 es"
  | .essl310 => "310 es"
  | .essl320 => "320 es"
  | .webgl2 => "webgl2"
  | .glsl110 => "110"
  | .glsl130 => "130"
  | .glsl330 => "330"
  | .glsl440 => "440"
  | .glsl450 => "450"

theorem mem_all (v : Version) : v ∈ all := by cases v <;> decide

/-- The version of a program that names none. -/
def standard : Version := .glsl440

/-! ## What a version asks for -/

/-- The first embedded version and its web dialect, the strictest of all. -/
def isStrict (v : Version) : Bool := v == .essl100 || v == .webgl1

/-- The number of rounds of a `for` loop must be plain from its header. -/
def restrictsLoopBounds (v : Version) : Bool := v.isStrict

/-- The initializers of globals must be constant expressions. -/
def requiresConstGlobals (v : Version) : Bool := v.isStrict

/-- A scalar may be swizzled like a vector of one component. -/
def hasScalarSwizzles (v : Version) : Bool := v == .glsl440 || v == .glsl450

def isWebGL (v : Version) : Bool := v == .webgl1 || v == .webgl2

/-! ## Reading -/

/-- Why a text names no version: the text itself. -/
structure Unknown where
  text : String
deriving DecidableEq, Repr

def Unknown.message (e : Unknown) : String :=
  "Unknown shading language version '" ++ e.text ++ "'. Valid versions: " ++
    ", ".intercalate (all.map Version.text)

/-- The version that a text names. White space around the name and the case
of its letters do not matter. No letter beyond ASCII has a letter of these
names as its lower case, so the lower case of ASCII is enough. -/
def parse (text : String) : Except Unknown Version :=
  let name := (Text.trimBlank text.toList).map Char.toLower
  match all.find? (·.text.toList == name) with
  | some v => .ok v
  | none => .error ⟨text⟩

end Version

end ShaderMorph
