-- JSON documents: their values, how a text is cut into tokens, and how the
-- tokens make up a value. Nothing is let through that the format does not
-- have, be it a comma too many or a zero in front of a number.
import ShaderMorph.Number.Decimal
import ShaderMorph.Number.Hexadecimal
import ShaderMorph.Settings.Fields

namespace ShaderMorph

/-- A value of a JSON document. A number is kept when it is a whole one that
is written plainly. A text is kept when its escapes make up characters. -/
inductive Json
  | null
  | bool (value : Bool)
  | natural (value : Nat)
  | otherNumber
  | text (value : Option String)
  | list (items : List Json)
  | record (fields : List (Option String × Json))
deriving Repr

namespace Json

/-! ## Tokens -/

inductive Token
  | listStart | listEnd | recordStart | recordEnd | comma | colon
  | word (value : Json)
  | text (value : Option String)

/-- A piece of a text: a character, or a unit of 16 bits that was escaped. -/
inductive Piece
  | char (c : Char)
  | unit (n : Nat)
deriving DecidableEq, Repr

/-- The characters that pieces make up. Two units may be needed for one
character, and half of such a pair is no character. -/
def joinPieces : List Piece → Option (List Char)
  | [] => some []
  | .char c :: ps => (joinPieces ps).map (c :: ·)
  | .unit high :: .unit low :: ps =>
    if 0xd800 ≤ high ∧ high < 0xdc00 then
      if 0xdc00 ≤ low ∧ low < 0xe000 then
        (joinPieces ps).map (Char.ofNat (0x10000 + (high - 0xd800) * 0x400 + (low - 0xdc00)) :: ·)
      else none
    else if 0xdc00 ≤ high ∧ high < 0xe000 then none
    else (joinPieces (.unit low :: ps)).map (Char.ofNat high :: ·)
  | .unit n :: ps =>
    if 0xd800 ≤ n ∧ n < 0xe000 then none else (joinPieces ps).map (Char.ofNat n :: ·)

/-- The digits at the front of a text, if there are any, and the rest. -/
def takeDigits? (cs : List Char) : Option (List Char × List Char) :=
  let ds := cs.takeWhile Char.isDigit
  if ds.isEmpty then none else some (ds, cs.dropWhile Char.isDigit)

/-- Whether a text is a fraction and an exponent, each of which may be
missing. -/
def isNumberTail (cs : List Char) : Bool :=
  let afterFraction : Option (List Char) :=
    match cs with
    | '.' :: cs => (takeDigits? cs).map (·.2)
    | cs => some cs
  match afterFraction with
  | none => false
  | some [] => true
  | some (c :: cs) =>
    (c == 'e' || c == 'E') &&
      (let cs :=
        match cs with
        | '+' :: cs => cs
        | '-' :: cs => cs
        | cs => cs
      (takeDigits? cs).any (·.2.isEmpty))

/-- The number that a word is. A sign makes it another number than a plain
one, even before a zero. -/
def readNumber? (cs : List Char) : Option Json := do
  let (signed, cs) :=
    match cs with
    | '-' :: cs => (true, cs)
    | cs => (false, cs)
  let (ds, tail) ← takeDigits? cs
  if Decimal.hasLeadingZero ds || !isNumberTail tail then none
  else if signed || !tail.isEmpty then some .otherNumber
  else some (.natural (Decimal.valueIn 10 ds))

/-- The value that a word is. -/
def readWord? (cs : List Char) : Option Json :=
  if cs = "null".toList then some .null
  else if cs = "true".toList then some (.bool true)
  else if cs = "false".toList then some (.bool false)
  else readNumber? cs

def isWordChar (c : Char) : Bool := c.isAlphanum || c == '+' || c == '-' || c == '.'

def isSpace (c : Char) : Bool := c == ' ' || c == '\t' || c == '\n' || c == '\r'

/-- The character that an escape of one letter stands for. -/
def escaped? (c : Char) : Option Char :=
  match c with
  | '"' => some '"'
  | '\\' => some '\\'
  | '/' => some '/'
  | 'b' => some '\x08'
  | 'f' => some '\x0c'
  | 'n' => some '\n'
  | 'r' => some '\r'
  | 't' => some '\t'
  | _ => none

/-- Where the cutting stands: between tokens, in a word, or in a text, there
perhaps in an escape. What was read of the token comes last to first. -/
inductive Mode
  | between
  | word (read : List Char)
  | text (read : List Piece)
  | escape (read : List Piece)
  | hex (read : List Piece) (left value : Nat)

/-- What a character between tokens is: perhaps a token, and how to go on. -/
def begin? (c : Char) : Option (List Token × Mode) :=
  if isSpace c then some ([], .between)
  else if isWordChar c then some ([], .word [c])
  else
    match c with
    | '[' => some ([.listStart], .between)
    | ']' => some ([.listEnd], .between)
    | '\x7b' => some ([.recordStart], .between)
    | '\x7d' => some ([.recordEnd], .between)
    | ',' => some ([.comma], .between)
    | ':' => some ([.colon], .between)
    | '"' => some ([], .text [])
    | _ => none

/-- The tokens of a text, if it can be cut into any. -/
def tokens? : Mode → List Char → Option (List Token)
  | .between, [] => some []
  | .word read, [] => (readWord? read.reverse).map fun w => [.word w]
  | _, [] => none
  | .between, c :: cs => do
    let (tokens, mode) ← begin? c
    let rest ← tokens? mode cs
    return tokens ++ rest
  | .word read, c :: cs =>
    if isWordChar c then tokens? (.word (c :: read)) cs
    else do
      let w ← readWord? read.reverse
      let (tokens, mode) ← begin? c
      let rest ← tokens? mode cs
      return .word w :: (tokens ++ rest)
  | .text read, c :: cs =>
    if c = '"' then do
      let rest ← tokens? .between cs
      return .text ((joinPieces read.reverse).map String.ofList) :: rest
    else if c = '\\' then tokens? (.escape read) cs
    else if c.toNat < 0x20 then none
    else tokens? (.text (.char c :: read)) cs
  | .escape read, c :: cs =>
    if c = 'u' then tokens? (.hex read 4 0) cs
    else
      match escaped? c with
      | some e => tokens? (.text (.char e :: read)) cs
      | none => none
  | .hex read left value, c :: cs =>
    match hexDigit? c with
    | none => none
    | some d =>
      let value := value * 16 + d
      if left ≤ 1 then tokens? (.text (.unit value :: read)) cs
      else tokens? (.hex read (left - 1) value) cs

/-! ## Values -/

mutual

/-- The value at the front of a list of tokens, and the rest. The fuel is
enough when there is as much of it as there are tokens. -/
def value? : (fuel : Nat) → List Token → Option (Json × List Token)
  | _ + 1, .word w :: ts => some (w, ts)
  | _ + 1, .text t :: ts => some (.text t, ts)
  | _ + 1, .listStart :: .listEnd :: ts => some (.list [], ts)
  | fuel + 1, .listStart :: ts => do
    let (items, ts) ← items? fuel ts
    return (.list items, ts)
  | _ + 1, .recordStart :: .recordEnd :: ts => some (.record [], ts)
  | fuel + 1, .recordStart :: ts => do
    let (fields, ts) ← fields? fuel ts
    return (.record fields, ts)
  | _, _ => none

/-- One or more items of a list, up to its end. -/
def items? : (fuel : Nat) → List Token → Option (List Json × List Token)
  | 0, _ => none
  | fuel + 1, ts => do
    let (item, ts) ← value? fuel ts
    match ts with
    | .comma :: ts =>
      let (items, ts) ← items? fuel ts
      return (item :: items, ts)
    | .listEnd :: ts => return ([item], ts)
    | _ => none

/-- One or more fields of a record, up to its end. -/
def fields? : (fuel : Nat) → List Token → Option (List (Option String × Json) × List Token)
  | fuel + 1, .text name :: .colon :: ts => do
    let (value, ts) ← value? fuel ts
    match ts with
    | .comma :: ts =>
      let (fields, ts) ← fields? fuel ts
      return ((name, value) :: fields, ts)
    | .recordEnd :: ts => return ([(name, value)], ts)
    | _ => none
  | _, _ => none

end

/-- The value of a whole JSON document. -/
def parse? (text : String) : Option Json := do
  let tokens ← tokens? .between text.toList
  let (value, rest) ← value? (tokens.length + 1) tokens
  if rest.isEmpty then some value else none

/-! ## As a format of settings -/

/-- The fields of a record. A list holds the first of them without names. -/
def record? (names : List String) : Json → Option (List (String × Json))
  | .record fields => fields.mapM fun (name, value) => name.map fun n => (n, value)
  | .list items => if items.length ≤ names.length then some (names.zip items) else none
  | _ => none

/-- JSON as a format of settings. -/
def format : DocumentFormat Json where
  natural?
    | .natural n => some n
    | _ => none
  truth?
    | .bool b => some b
    | _ => none
  text?
    | .text t => t
    | _ => none
  record? := record?

end Json

end ShaderMorph
