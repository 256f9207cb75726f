-- Swizzles such as `v.xyz` or `v.rg`: which components of a vector a member
-- name picks.

namespace ShaderMorph

/-- The letters of the three ways to name components. -/
inductive LetterSet
  | position
  | colour
  | texture
deriving DecidableEq, Repr

namespace LetterSet

def letters : LetterSet → List Char
  | .position => ['x', 'y', 'z', 'w']
  | .colour => ['r', 'g', 'b', 'a']
  | .texture => ['s', 't', 'p', 'q']

/-- The set that a letter belongs to. No letter is in two of them. -/
def containing? (c : Char) : Option LetterSet :=
  [LetterSet.position, .colour, .texture].find? (·.letters.contains c)

end LetterSet

/-- A swizzle: the components it picks, in order, and the letters it is
written in. -/
structure Swizzle where
  components : List Nat
  letters : LetterSet
deriving DecidableEq, Repr

namespace Swizzle

/-- The component that a letter of the set names, if a vector of this width
has it. -/
def componentOf? (letters : LetterSet) (width : Nat) (c : Char) : Option Nat := do
  let component ← letters.letters.idxOf? c
  if component < width then some component else none

/-- The swizzle that `name` is for a vector of this width. It has one to
four letters, all of one set, and names no component that is not there. -/
def parse? (name : String) (width : Nat) : Option Swizzle :=
  match name.toList with
  | [] => none
  | c :: rest => do
    if 4 < name.utf8ByteSize then none
    let letters ← LetterSet.containing? c
    let components ← (c :: rest).mapM (componentOf? letters width)
    return ⟨components, letters⟩

/-- The number of components picked. -/
def length (s : Swizzle) : Nat := s.components.length

/-- Whether exactly the `width` components from `offset` on are picked, in
order. -/
def isExactly (s : Swizzle) (offset width : Nat) : Bool :=
  s.components == (List.range width).map (offset + ·)

/-- Whether every component picked is one of the `width` from `offset` on. -/
def isWithin (s : Swizzle) (offset width : Nat) : Bool :=
  s.components.all fun c => offset ≤ c && c < offset + width

/-- The same components counted from `offset`, written in the same letters.
There is no such swizzle when a component lies before `offset`. -/
def shifted? (s : Swizzle) (offset : Nat) : Option String := do
  let cs ← s.components.mapM fun c =>
    if offset ≤ c then s.letters.letters[c - offset]? else none
  return String.ofList cs

end Swizzle

end ShaderMorph
