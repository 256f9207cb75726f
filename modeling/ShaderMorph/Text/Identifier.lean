-- Identifiers of the shading language: a letter or an underscore, and then
-- letters, digits and underscores, all of them ASCII.

namespace ShaderMorph.Text

def startsIdentifier (c : Char) : Bool := c.isAlpha || c == '_'

def continuesIdentifier (c : Char) : Bool := c.isAlphanum || c == '_'

def isIdentifier : List Char → Bool
  | [] => false
  | c :: cs => startsIdentifier c && cs.all continuesIdentifier

end ShaderMorph.Text
