-- Characters of a YAML document with their places, and the scalars that
-- begin at one: plain ones, which end where the structure goes on, and
-- quoted ones. A scalar may run over several lines; a single line break in
-- it is read as a space, and of several the first one is dropped.
import ShaderMorph.Number.Hexadecimal

namespace ShaderMorph.Yaml

/-! ## Characters and places -/

/-- A character of a document: how many bytes of UTF-8 stand before it, and
its line and column, counted in characters from zero. -/
structure Spot where
  char : Char
  offset : Nat
  line : Nat
  column : Nat
deriving Repr

/-- The characters that a document may hold. -/
def isAllowed (c : Char) : Bool :=
  let n := c.toNat
  n == 0x9 || n == 0xa || n == 0xd || (0x20 ≤ n && n ≤ 0x7e) || n == 0x85 ||
    (0xa0 ≤ n && n ≤ 0xd7ff) || (0xe000 ≤ n && n ≤ 0xfffd) || 0x10000 ≤ n

/-- The line break that a character is, if it is one. The usual ones are all
the same. -/
def lineBreak? (c : Char) : Option Char :=
  if c = '\n' ∨ c = '\r' ∨ c = '\u0085' then some '\n'
  else if c = '\u2028' ∨ c = '\u2029' then some c
  else none

/-- The characters of a text with their places. A carriage return and the
line feed after it are one line break. -/
def spotsFrom (offset line column : Nat) : List Char → List Spot
  | [] => []
  | '\r' :: '\n' :: cs => ⟨'\n', offset, line, column⟩ :: spotsFrom (offset + 2) (line + 1) 0 cs
  | c :: cs =>
    let next := offset + c.utf8Size
    match lineBreak? c with
    | some b => ⟨b, offset, line, column⟩ :: spotsFrom next (line + 1) 0 cs
    | none => ⟨c, offset, line, column⟩ :: spotsFrom next line (column + 1) cs

/-- The characters of a document with their places, if all are allowed. -/
def spots? (text : String) : Option (List Spot) :=
  if text.toList.all isAllowed then some (spotsFrom 0 0 0 text.toList) else none

namespace Spot

def isBlank (s : Spot) : Bool := s.char == ' ' || s.char == '\t'

def isBreak (s : Spot) : Bool := (lineBreak? s.char).isSome

end Spot

/-- Whether a blank, a line break or the end of the document comes next. -/
def atGap : List Spot → Bool
  | [] => true
  | s :: _ => s.isBlank || s.isBreak

/-- Whether three of a character begin a line and stand by themselves. -/
def isMark (c : Char) : List Spot → Bool
  | a :: b :: d :: rest =>
    a.column == 0 && a.char == c && b.char == c && d.char == c && atGap rest
  | _ => false

/-- Whether a document starts or ends here. -/
def atDocumentMark (s : List Spot) : Bool := isMark '-' s || isMark '.' s

/-! ## Gaps -/

/-- What stands between two words of a scalar: nothing, blanks, or line
breaks. A line break that is escaped does not count as the first one. The
blanks and the further breaks come last to first. -/
inductive Gap
  | none
  | blanks (read : List Char)
  | breaks (first : Option Char) (more : List Char)

namespace Gap

def isNone : Gap → Bool
  | .none => true
  | _ => false

def isBroken : Gap → Bool
  | .breaks _ _ => true
  | _ => false

/-- A further blank. Blanks after a line break do not count. -/
def addBlank (c : Char) : Gap → Gap
  | .none => .blanks [c]
  | .blanks read => .blanks (c :: read)
  | .breaks first more => .breaks first more

/-- A further line break. Blanks before it do not count. -/
def addBreak (c : Char) : Gap → Gap
  | .none => .breaks (some c) []
  | .blanks _ => .breaks (some c) []
  | .breaks first more => .breaks first (c :: more)

/-- The text read so far, last to first, with a gap behind it. -/
def join (g : Gap) (read : List Char) : List Char :=
  match g with
  | .none => read
  | .blanks bs => bs ++ read
  | .breaks Option.none more => more ++ read
  | .breaks (some first) more =>
    if first = '\n' then if more.isEmpty then ' ' :: read else more ++ read
    else more ++ first :: read

end Gap

/-! ## Plain scalars -/

/-- A plain scalar as it was read: its text, what comes after it, and whether
a line break stands between. -/
structure PlainScalar where
  text : String
  rest : List Spot
  broken : Bool

def isFlowMark (c : Char) : Bool := [',', '[', ']', '\x7b', '\x7d'].contains c

/-- Read a plain scalar. `flow` tells whether it stands between brackets;
where it does not, its further lines begin at column `indent` or later. There
is none when the layout is out of order. -/
def plain? (flow : Bool) (indent : Nat) :
    (gap : Gap) → (read : List Char) → List Spot → Option PlainScalar
  | gap, read, [] => some ⟨String.ofList read.reverse, [], gap.isBroken⟩
  | gap, read, s :: rest =>
    let ended : PlainScalar := ⟨String.ofList read.reverse, s :: rest, gap.isBroken⟩
    if s.isBlank then
      if gap.isBroken && s.char == '\t' && s.column < indent then none
      else plain? flow indent (gap.addBlank s.char) read rest
    else if s.isBreak then plain? flow indent (gap.addBreak s.char) read rest
    else if !gap.isNone && ((!flow && s.column < indent) || s.char == '#') then some ended
    else if atDocumentMark (s :: rest) then some ended
    else if flow && s.char == ':' &&
        (match rest with
        | next :: _ => next.char == '?' || isFlowMark next.char
        | [] => false) then none
    else if (s.char == ':' && atGap rest) || (flow && isFlowMark s.char) then some ended
    else plain? flow indent .none (s.char :: gap.join read) rest

/-! ## Quoted scalars -/

/-- The character that an escape of one letter stands for. -/
def escaped? (c : Char) : Option Char :=
  match c with
  | '0' => some '\x00'
  | 'a' => some '\x07'
  | 'b' => some '\x08'
  | 't' => some '\t'
  | '\t' => some '\t'
  | 'n' => some '\n'
  | 'v' => some '\x0b'
  | 'f' => some '\x0c'
  | 'r' => some '\r'
  | 'e' => some '\x1b'
  | ' ' => some ' '
  | '"' => some '"'
  | '/' => some '/'
  | '\\' => some '\\'
  | 'N' => some '\u0085'
  | '_' => some '\u00a0'
  | 'L' => some '\u2028'
  | 'P' => some '\u2029'
  | _ => none

/-- The number of hexadecimal digits that an escape takes. -/
def hexLength? (c : Char) : Option Nat :=
  match c with
  | 'x' => some 2
  | 'u' => some 4
  | 'U' => some 8
  | _ => none

/-- Read a scalar in single quotes, from behind the first one. A quote in it
is written twice. -/
def singleQuoted? : (gap : Gap) → (read : List Char) → List Spot → Option (String × List Spot)
  | _, _, [] => none
  | gap, read, s :: rest =>
    if atDocumentMark (s :: rest) then none
    else if s.isBlank then singleQuoted? (gap.addBlank s.char) read rest
    else if s.isBreak then singleQuoted? (gap.addBreak s.char) read rest
    else if s.char = '\'' then
      match rest with
      | next :: rest' =>
        if next.char = '\'' then singleQuoted? .none ('\'' :: gap.join read) rest'
        else some (String.ofList (gap.join read).reverse, next :: rest')
      | [] => some (String.ofList (gap.join read).reverse, [])
    else singleQuoted? .none (s.char :: gap.join read) rest

/-- Where the reading of a scalar in double quotes stands: in its text, right
after a backslash, or in the digits of an escape. -/
inductive QuoteMode
  | text
  | escape
  | hex (left value : Nat)

/-- Read a scalar in double quotes, from behind the first one. -/
def doubleQuoted? : (mode : QuoteMode) → (gap : Gap) → (read : List Char) → List Spot →
    Option (String × List Spot)
  | _, _, _, [] => none
  | .text, gap, read, s :: rest =>
    if atDocumentMark (s :: rest) then none
    else if s.isBlank then doubleQuoted? .text (gap.addBlank s.char) read rest
    else if s.isBreak then doubleQuoted? .text (gap.addBreak s.char) read rest
    else if s.char = '"' then some (String.ofList (gap.join read).reverse, rest)
    else if s.char = '\\' then doubleQuoted? .escape .none (gap.join read) rest
    else doubleQuoted? .text .none (s.char :: gap.join read) rest
  | .escape, _, read, s :: rest =>
    if s.isBreak then doubleQuoted? .text (.breaks none []) read rest
    else
      match escaped? s.char, hexLength? s.char with
      | some c, _ => doubleQuoted? .text .none (c :: read) rest
      | none, some length => doubleQuoted? (.hex length 0) .none read rest
      | none, none => none
  | .hex left value, _, read, s :: rest =>
    match hexDigit? s.char with
    | none => none
    | some d =>
      let value := value * 16 + d
      if 1 < left then doubleQuoted? (.hex (left - 1) value) .none read rest
      else if h : value.isValidChar then
        doubleQuoted? .text .none (Char.ofNatAux value h :: read) rest
      else none

end ShaderMorph.Yaml
