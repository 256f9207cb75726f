-- The tokens of a YAML document. Besides marks and scalars there are tokens
-- for the start and the end of collections that show only in the layout:
-- deeper columns open them, and a return to an earlier column closes them. A
-- scalar turns out to be a key when a colon follows on its line, and then
-- the token for a key is put in front of it.
import ShaderMorph.Settings.Yaml.Scalar

namespace ShaderMorph.Yaml

inductive Token
  | documentStart | documentEnd
  | blockMapping | blockSequence | blockEnd
  | key | value | entry
  | flowMapping | flowMappingEnd | flowSequence | flowSequenceEnd | flowEntry
  | scalar (text : String) (plain : Bool)
deriving DecidableEq, Repr

/-- Something that may turn out to be a key: where it stands, how many tokens
come before it, and whether it must be a key, as everything must that begins
in the column of a mapping. -/
structure PossibleKey where
  start : Spot
  before : Nat
  required : Bool
deriving Repr

/-- How far a document is cut: its tokens, the columns of the open block
collections and the possible keys, both innermost first. There is a place
for a possible key in every open pair of brackets and one outside them. -/
structure Cut where
  tokens : List Token
  columns : List Nat
  keys : List (Option PossibleKey)
  keyAllowed : Bool

namespace Cut

def start : Cut := ⟨[], [], [none], true⟩

/-- Whether the cutting is between brackets. -/
def inFlow (c : Cut) : Bool := 1 < c.keys.length

def add (c : Cut) (t : Token) : Cut := { c with tokens := c.tokens ++ [t] }

/-! ## Layout -/

/-- Close the block collections that begin beyond a column. -/
def closeBeyond (column : Nat) : (columns : List Nat) → List Nat × Nat
  | [] => ([], 0)
  | c :: cs =>
    if column < c then
      let (left, closed) := closeBeyond column cs
      (left, closed + 1)
    else (c :: cs, 0)

/-- Go back to a column. -/
def unroll (c : Cut) (column : Nat) : Cut :=
  if c.inFlow then c
  else
    let (columns, closed) := closeBeyond column c.columns
    { c with columns, tokens := c.tokens ++ List.replicate closed .blockEnd }

/-- Close all block collections. -/
def unrollAll (c : Cut) : Cut :=
  if c.inFlow then c
  else
    { c with columns := [], tokens := c.tokens ++ List.replicate c.columns.length .blockEnd }

/-- Open a block collection at a column, unless one is open there; its token
goes behind the first `before` ones. -/
def roll (c : Cut) (column before : Nat) (t : Token) : Cut :=
  if c.inFlow || c.columns.head?.any (column ≤ ·) then c
  else { c with columns := column :: c.columns, tokens := c.tokens.insertIdx before t }

/-! ## Possible keys -/

/-- Give up the innermost possible key; there must be none that is required. -/
def dropKey? (c : Cut) : Option Cut :=
  match c.keys with
  | some k :: keys => if k.required then none else some { c with keys := none :: keys }
  | _ => some c

/-- What begins here may turn out to be a key, if a key may stand here. -/
def saveKey? (c : Cut) (s : Spot) : Option Cut :=
  if c.keyAllowed then do
    let required := !c.inFlow && c.columns.head? == some s.column
    let c ← c.dropKey?
    return { c with keys := some ⟨s, c.tokens.length, required⟩ :: c.keys.tail }
  else some c

/-- Whether something that began at `k` cannot be a key any more: a key is
on one line and at most 1024 bytes long. -/
def isStale (k : PossibleKey) (s : Spot) : Bool :=
  k.start.line < s.line || k.start.offset + 1024 < s.offset

/-- Give up the possible keys that cannot be keys any more. -/
def dropStale? (c : Cut) (s : Spot) : Option Cut := do
  let keys ← c.keys.mapM fun k? =>
    match k? with
    | some k => if isStale k s then if k.required then none else some none else some (some k)
    | none => some none
  return { c with keys }

/-! ## Tokens -/

/-- A mark that starts or ends a document. -/
def addDocumentMark? (c : Cut) (t : Token) : Option Cut := do
  let c ← c.unrollAll.dropKey?
  return { c.add t with keyAllowed := false }

/-- An opening bracket, which may begin a key. -/
def openFlow? (c : Cut) (s : Spot) (t : Token) : Option Cut := do
  let c ← c.saveKey? s
  return { c.add t with keys := none :: c.keys, keyAllowed := true }

/-- A closing bracket. -/
def closeFlow? (c : Cut) (t : Token) : Option Cut := do
  let c ← c.dropKey?
  let keys := if c.inFlow then c.keys.tail else c.keys
  return { c.add t with keys, keyAllowed := false }

/-- A comma between brackets. -/
def addFlowEntry? (c : Cut) : Option Cut := do
  let c ← c.dropKey?
  return { c.add .flowEntry with keyAllowed := true }

/-- A dash before an item. -/
def addEntry? (c : Cut) (s : Spot) : Option Cut := do
  if !c.inFlow && !c.keyAllowed then none
  let c ← (c.roll s.column c.tokens.length .blockSequence).dropKey?
  return { c.add .entry with keyAllowed := true }

/-- A question mark before a key. -/
def addKey? (c : Cut) (s : Spot) : Option Cut := do
  if !c.inFlow && !c.keyAllowed then none
  let c ← (c.roll s.column c.tokens.length .blockMapping).dropKey?
  return { c.add .key with keyAllowed := !c.inFlow }

/-- A colon before a value. What began last becomes a key by it, if it can. -/
def addValue? (c : Cut) (s : Spot) : Option Cut :=
  match c.keys with
  | some k :: keys =>
    let c := { c with tokens := c.tokens.insertIdx k.before .key, keys := none :: keys }
    let c := c.roll k.start.column k.before .blockMapping
    some { c.add .value with keyAllowed := false }
  | _ =>
    if c.inFlow then some { c.add .value with keyAllowed := false }
    else if c.keyAllowed then
      let c := c.roll s.column c.tokens.length .blockMapping
      some { c.add .value with keyAllowed := true }
    else none

/-- A scalar that begins here. -/
def addScalar? (c : Cut) (s : Spot) (text : String) (plain : Bool) : Option Cut := do
  let c ← c.saveKey? s
  return { c.add (.scalar text plain) with keyAllowed := false }

/-! ## Cutting -/

/-- Pass over blanks, comments and line breaks, and over a byte order mark
that begins a line, which takes up its column. After a line break outside
brackets a key may begin; a tab is passed over only where none may. -/
def skip (flow : Bool) : (inComment keyAllowed : Bool) → List Spot → Bool × List Spot
  | _, keyAllowed, [] => (keyAllowed, [])
  | inComment, keyAllowed, s :: rest =>
    if s.isBreak then skip flow false (keyAllowed || !flow) rest
    else if inComment then skip flow true keyAllowed rest
    else if s.char == ' ' || (s.char == '\t' && (flow || !keyAllowed)) ||
        (s.char == '\ufeff' && s.column == 0) then skip flow false keyAllowed rest
    else if s.char == '#' then skip flow true keyAllowed rest
    else (keyAllowed, s :: rest)

/-- The characters that begin no plain scalar. -/
def isIndicator (c : Char) : Bool :=
  ['-', '?', ':', ',', '[', ']', '\x7b', '\x7d', '#', '&', '*', '!', '|', '>', '\'', '"', '%',
    '@', '\x60'].contains c

/-- Whether a plain scalar begins here. -/
def beginsPlain (c : Cut) (s : Spot) (rest : List Spot) : Bool :=
  (!isIndicator s.char && !s.isBlank) || (s.char == '-' && !rest.head?.any Spot.isBlank) ||
    (!c.inFlow && (s.char == '?' || s.char == ':') && !atGap rest)

/-- The next token and all that it brings with it. Directives, tags, anchors
and block scalars are not part of the documents that are read. -/
def next? (c : Cut) (s : Spot) (rest : List Spot) : Option (Cut × List Spot) :=
  if s.column = 0 ∧ s.char = '%' then none
  else if isMark '-' (s :: rest) then
    (c.addDocumentMark? .documentStart).map fun c => (c, rest.drop 2)
  else if isMark '.' (s :: rest) then
    (c.addDocumentMark? .documentEnd).map fun c => (c, rest.drop 2)
  else if s.char = '[' then (c.openFlow? s .flowSequence).map fun c => (c, rest)
  else if s.char = '\x7b' then (c.openFlow? s .flowMapping).map fun c => (c, rest)
  else if s.char = ']' then (c.closeFlow? .flowSequenceEnd).map fun c => (c, rest)
  else if s.char = '\x7d' then (c.closeFlow? .flowMappingEnd).map fun c => (c, rest)
  else if s.char = ',' then c.addFlowEntry?.map fun c => (c, rest)
  else if s.char = '-' ∧ atGap rest then (c.addEntry? s).map fun c => (c, rest)
  else if s.char = '?' ∧ (c.inFlow ∨ atGap rest) then (c.addKey? s).map fun c => (c, rest)
  else if s.char = ':' ∧ (c.inFlow ∨ atGap rest) then (c.addValue? s).map fun c => (c, rest)
  else if s.char = '\'' then do
    let (text, rest) ← singleQuoted? .none [] rest
    let c ← c.addScalar? s text false
    return (c, rest)
  else if s.char = '"' then do
    let (text, rest) ← doubleQuoted? .text .none [] rest
    let c ← c.addScalar? s text false
    return (c, rest)
  else if c.beginsPlain s rest then do
    let indent := (c.columns.head?.map (· + 1)).getD 0
    let scalar ← plain? c.inFlow indent .none [] (s :: rest)
    let c ← c.addScalar? s scalar.text true
    return ({ c with keyAllowed := scalar.broken }, scalar.rest)
  else none

/-- Cut the rest of a document. Every token takes a character at least, so
the fuel is enough when there is more of it than there are characters. -/
def finish? : (fuel : Nat) → Cut → List Spot → Option (List Token)
  | 0, _, _ => none
  | fuel + 1, c, spots =>
    let (keyAllowed, spots) := skip c.inFlow false c.keyAllowed spots
    let c := { c with keyAllowed }
    match spots with
    | [] => do
      let c ← c.unrollAll.dropKey?
      return c.tokens
    | s :: rest => do
      let c ← c.dropStale? s
      let (c, rest) ← (c.unroll s.column).next? s rest
      finish? fuel c rest

end Cut

/-- The tokens of a document. -/
def tokens? (text : String) : Option (List Token) := do
  let spots ← spots? text
  Cut.finish? (spots.length + 1) .start spots

end ShaderMorph.Yaml
