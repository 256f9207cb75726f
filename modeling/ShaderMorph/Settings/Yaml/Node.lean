-- YAML documents as values: scalars, sequences and mappings. A value that is
-- missing, such as that of a key without one, is an empty plain scalar.
import ShaderMorph.Number.Decimal
import ShaderMorph.Settings.Fields
import ShaderMorph.Settings.Yaml.Token
import ShaderMorph.Text.Strip

namespace ShaderMorph.Yaml

inductive Node
  | scalar (text : String) (plain : Bool)
  | sequence (items : List Node)
  | mapping (pairs : List (Node × Node))
deriving Repr

namespace Node

def missing : Node := .scalar "" true

/-! ## Values out of tokens -/

/-- Whether a node is missing where this token comes next. -/
def endsBlock : Token → Bool
  | .key | .value | .blockEnd => true
  | _ => false

mutual

/-- The node at the front of a list of tokens, and the rest. `block` allows
collections that show only in the layout, and `bare` items without a column
of their own. The fuel is enough when there is twice as much of it as there
are tokens. -/
def node? : (fuel : Nat) → (block bare : Bool) → List Token → Option (Node × List Token)
  | 0, _, _, _ => none
  | fuel + 1, block, bare, ts =>
    match ts with
    | .scalar text plain :: ts => some (.scalar text plain, ts)
    | .flowSequence :: ts => do
      let (items, ts) ← flowItems? fuel true ts
      return (.sequence items, ts)
    | .flowMapping :: ts => do
      let (pairs, ts) ← flowPairs? fuel true ts
      return (.mapping pairs, ts)
    | .blockSequence :: ts =>
      if block then do
        let (items, ts) ← blockItems? fuel ts
        return (.sequence items, ts)
      else none
    | .blockMapping :: ts =>
      if block then do
        let (pairs, ts) ← blockPairs? fuel ts
        return (.mapping pairs, ts)
      else none
    | .entry :: ts =>
      if bare then do
        let (items, ts) ← bareItems? fuel (.entry :: ts)
        return (.sequence items, ts)
      else none
    | _ => none

/-- The node of a key or a value in a block mapping, which may be missing. -/
def blockPart? : (fuel : Nat) → List Token → Option (Node × List Token)
  | 0, _ => none
  | fuel + 1, ts =>
    if ts.head?.any endsBlock then some (missing, ts) else node? fuel true true ts

/-- The pairs of a block mapping, up to its end. -/
def blockPairs? : (fuel : Nat) → List Token → Option (List (Node × Node) × List Token)
  | 0, _ => none
  | fuel + 1, ts =>
    match ts with
    | .blockEnd :: ts => some ([], ts)
    | .key :: ts => do
      let (key, ts) ← blockPart? fuel ts
      let (value, ts) ←
        match ts with
        | .value :: ts => blockPart? fuel ts
        | ts => some (missing, ts)
      let (pairs, ts) ← blockPairs? fuel ts
      return ((key, value) :: pairs, ts)
    | _ => none

/-- The items of a block sequence, up to its end. -/
def blockItems? : (fuel : Nat) → List Token → Option (List Node × List Token)
  | 0, _ => none
  | fuel + 1, ts =>
    match ts with
    | .blockEnd :: ts => some ([], ts)
    | .entry :: ts => do
      let (item, ts) ←
        match ts with
        | .entry :: _ => some (missing, ts)
        | .blockEnd :: _ => some (missing, ts)
        | _ => node? fuel true false ts
      let (items, ts) ← blockItems? fuel ts
      return (item :: items, ts)
    | _ => none

/-- The items of a sequence in the column of the mapping around it. -/
def bareItems? : (fuel : Nat) → List Token → Option (List Node × List Token)
  | 0, _ => none
  | fuel + 1, ts =>
    match ts with
    | .entry :: ts => do
      let (item, ts) ←
        match ts with
        | .entry :: _ => some (missing, ts)
        | t :: _ => if endsBlock t then some (missing, ts) else node? fuel true false ts
        | [] => none
      let (items, ts) ← bareItems? fuel ts
      return (item :: items, ts)
    | _ => some ([], ts)

/-- The items of a sequence in brackets, up to its end. An item with a mark
for a key is a mapping of one pair; where its key is missing, the mark that
shows this is taken for the key, so a value needs a colon of its own. -/
def flowItems? : (fuel : Nat) → (first : Bool) → List Token → Option (List Node × List Token)
  | 0, _, _ => none
  | fuel + 1, first, ts =>
    match ts with
    | .flowSequenceEnd :: ts => some ([], ts)
    | _ => do
      let ts ←
        match first, ts with
        | true, ts => some ts
        | false, .flowEntry :: ts => some ts
        | false, _ => none
      match ts with
      | .flowSequenceEnd :: ts => return ([], ts)
      | .key :: ts =>
        let (key, ts) ←
          match ts with
          | .value :: ts => some (missing, ts)
          | .flowEntry :: ts => some (missing, ts)
          | .flowSequenceEnd :: ts => some (missing, ts)
          | ts => node? fuel false false ts
        let (value, ts) ←
          match ts with
          | .value :: ts => flowPart? fuel ts
          | ts => some (missing, ts)
        let (items, ts) ← flowItems? fuel false ts
        return (.mapping [(key, value)] :: items, ts)
      | _ =>
        let (item, ts) ← node? fuel false false ts
        let (items, ts) ← flowItems? fuel false ts
        return (item :: items, ts)

/-- The pairs of a mapping in braces, up to its end. -/
def flowPairs? : (fuel : Nat) → (first : Bool) → List Token →
    Option (List (Node × Node) × List Token)
  | 0, _, _ => none
  | fuel + 1, first, ts =>
    match ts with
    | .flowMappingEnd :: ts => some ([], ts)
    | _ => do
      let ts ←
        match first, ts with
        | true, ts => some ts
        | false, .flowEntry :: ts => some ts
        | false, _ => none
      match ts with
      | .flowMappingEnd :: ts => return ([], ts)
      | .key :: ts =>
        let (key, ts) ← flowPart? fuel ts
        let (value, ts) ←
          match ts with
          | .value :: ts => flowPart? fuel ts
          | ts => some (missing, ts)
        let (pairs, ts) ← flowPairs? fuel false ts
        return ((key, value) :: pairs, ts)
      | _ =>
        let (key, ts) ← node? fuel false false ts
        let (pairs, ts) ← flowPairs? fuel false ts
        return ((key, missing) :: pairs, ts)

/-- The node of a key or a value between brackets, which may be missing. -/
def flowPart? : (fuel : Nat) → List Token → Option (Node × List Token)
  | 0, _ => none
  | fuel + 1, ts =>
    match ts with
    | .value :: _ => some (missing, ts)
    | .flowEntry :: _ => some (missing, ts)
    | .flowMappingEnd :: _ => some (missing, ts)
    | .flowSequenceEnd :: _ => some (missing, ts)
    | _ => node? fuel false false ts

end

/-- The node of the only document that tokens make up. Without any there is
an empty one, and nothing may come after its end. -/
def ofTokens? (ts : List Token) : Option Node := do
  let fuel := 3 * ts.length + 3
  let (node, rest) ←
    match ts with
    | [] => some (missing, [])
    | .documentStart :: [] => some (missing, [])
    | .documentStart :: .documentStart :: _ => none
    | .documentStart :: .documentEnd :: rest => some (missing, .documentEnd :: rest)
    | .documentStart :: ts => node? fuel true false ts
    | ts => node? fuel true false ts
  if rest.all (· == .documentEnd) then some node else none

/-- The only document of a text. -/
def parse? (text : String) : Option Node := (tokens? text).bind ofTokens?

/-! ## As a format of settings -/

/-- A number in digits of a base, one at least. -/
def inBase? (base : Nat) (digits : List Char) : Option Nat :=
  let values := digits.map fun c => (hexDigit? c).bind fun d => if d < base then some d else none
  if digits.isEmpty then none
  else values.foldl (fun n d => do return (← n) * base + (← d)) (some 0)

/-- A number without a sign: decimal and without leading zeros, or with the
letter of another base behind a zero. -/
def unsigned? (text : List Char) : Option Nat :=
  match text with
  | '0' :: 'x' :: digits => inBase? 16 digits
  | '0' :: 'o' :: digits => inBase? 8 digits
  | '0' :: 'b' :: digits => inBase? 2 digits
  | _ => if Decimal.hasLeadingZero text then none else Decimal.readDigits? text

/-- A whole number from zero on, perhaps with a plus sign. -/
def natural? : Node → Option Nat
  | .scalar text true =>
    match text.toList with
    | '+' :: digits => unsigned? digits
    | digits => unsigned? digits
  | _ => none

def truth? : Node → Option Bool
  | .scalar text true =>
    if ["true", "True", "TRUE"].contains text then some true
    else if ["false", "False", "FALSE"].contains text then some false
    else none
  | _ => none

def text? : Node → Option String
  | .scalar text _ => some text
  | _ => none

/-- The fields of a mapping. An empty plain scalar has none. -/
def record? : Node → Option (List (String × Node))
  | .mapping pairs => pairs.mapM fun (key, value) => key.text?.map fun name => (name, value)
  | .scalar "" true => some []
  | _ => none

/-- YAML as a format of settings. -/
def format : DocumentFormat Node := ⟨natural?, truth?, text?, fun _ => record?⟩

end Node

end ShaderMorph.Yaml
