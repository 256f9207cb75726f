-- The names of merged vectors. Such a name tells what was packed into the
-- vector: after a known start the number of constituents, then for each one
-- its first component, its number of components and the length of its name,
-- and at last all the names. In `GLF_merged2_0_1_1_1_1_1bc` there is `b` in
-- the first component and `c` in the second. A name that strays from this
-- form anywhere is not the name of a merged vector.
import ShaderMorph.Number.Decimal
import ShaderMorph.Shader.DataType
import ShaderMorph.Text.Identifier
import ShaderMorph.Text.Strip

namespace ShaderMorph

/-- One variable packed into a vector: its name, its first component, and how
many components it takes. -/
structure Constituent where
  name : String
  offset : Nat
  width : Nat
deriving DecidableEq, Repr

namespace Constituent

/-- One past the last component. -/
def stop (c : Constituent) : Nat := c.offset + c.width

/-- The type that the variable had before it was packed. -/
def type (c : Constituent) (elem : ElementKind) : DataType := .ofComponents elem c.width

/-- Whether two constituents share a component. -/
def meets (a b : Constituent) : Bool := a.offset < b.stop && b.offset < a.stop

end Constituent

/-- What was packed into a vector, in the order of its name. -/
structure Provenance where
  constituents : List Constituent
deriving DecidableEq, Repr

/-- Why a name is not that of a merged vector. -/
inductive ProvenanceError
  /-- It does not begin as merged names do. -/
  | missingStart (name : String)
  /-- A number is missing or not one that can stand there. -/
  | malformedField (name : String) (field : Nat)
  /-- A constituent goes beyond the widest vector. -/
  | outOfRange (name : String) (index offset stop : Nat)
  /-- Two constituents share a component. -/
  | overlap (name : String)
  /-- There is no piece of the length that the next name should have. -/
  | namesTooShort (name : String) (left needed : Nat)
  /-- The piece for a name is no identifier. -/
  | notIdentifier (name piece : String)
  /-- Something is left after the last name. -/
  | trailing (name rest : String)
deriving DecidableEq, Repr

namespace Provenance

/-- The widest vector that there is. -/
def maxWidth : Nat := 4

/-! ## Writing -/

/-- The numbers of one constituent in a merged name. -/
def layoutText (c : Constituent) : String :=
  "_" ++ Decimal.natural c.offset ++ "_" ++ Decimal.natural c.width ++ "_" ++
    Decimal.natural c.name.utf8ByteSize

/-- The merged name with this start. -/
def encode (p : Provenance) (start : String) : String :=
  start ++ Decimal.natural p.constituents.length ++
    String.join (p.constituents.map layoutText) ++
    String.join (p.constituents.map (·.name))

/-- One past the last component that any constituent takes. -/
def span (p : Provenance) : Nat := (p.constituents.map (·.stop)).foldl max 0

/-! ## Reading -/

/-- Numbers in a merged name are below this. -/
def numberLimit : Nat := Nat.pow 2 64

/-- A number at the front of a text, and the rest. -/
def number? (text : List Char) : Option (Nat × List Char) :=
  match Decimal.readFront? text with
  | some (n, rest) => if n < numberLimit then some (n, rest) else none
  | none => none

/-- An underscore and a number at the front of a text, and the rest. -/
def separated? : List Char → Option (Nat × List Char)
  | '_' :: text => number? text
  | _ => none

/-- The numbers of one constituent: where it lies, and the bytes of its
name. -/
structure Slot where
  offset : Nat
  width : Nat
  nameBytes : Nat
deriving DecidableEq, Repr

/-- The field of a merged name with this number, counted from its front. -/
def readField (name : String) (field : Nat) (text : List Char) :
    Except ProvenanceError (Nat × List Char) :=
  match separated? text with
  | some r => .ok r
  | none => .error (.malformedField name field)

/-- The numbers of the constituent numbered `index`. -/
def readSlot (name : String) (index : Nat) (text : List Char) :
    Except ProvenanceError (Slot × List Char) := do
  let field := 1 + 3 * index
  let (offset, text) ← readField name field text
  let (width, text) ← readField name (field + 1) text
  let (nameBytes, text) ← readField name (field + 2) text
  if width = 0 ∨ nameBytes = 0 then .error (.malformedField name field)
  else if maxWidth < offset + width then .error (.outOfRange name index offset (offset + width))
  else .ok (⟨offset, width, nameBytes⟩, text)

/-- The numbers of `count` constituents, from the one numbered `index` on. -/
def readSlots (name : String) : (count index : Nat) → (text : List Char) →
    Except ProvenanceError (List Slot × List Char)
  | 0, _, text => .ok ([], text)
  | count + 1, index, text => do
    let (slot, text) ← readSlot name index text
    let (slots, text) ← readSlots name count (index + 1) text
    return (slot :: slots, text)

/-- The constituents that lie in these slots, from the text of their names. -/
def readNames (name : String) : (slots : List Slot) → (text : List Char) →
    Except ProvenanceError (List Constituent)
  | [], [] => .ok []
  | [], c :: text => .error (.trailing name (String.ofList (c :: text)))
  | slot :: slots, text =>
    match Text.splitBytes? text slot.nameBytes with
    | none => .error (.namesTooShort name (Text.byteLength text) slot.nameBytes)
    | some (head, tail) =>
      if Text.isIdentifier head then do
        let rest ← readNames name slots tail
        return ⟨String.ofList head, slot.offset, slot.width⟩ :: rest
      else .error (.notIdentifier name (String.ofList head))

/-- Whether two of the constituents share a component. -/
def overlapping : List Constituent → Bool
  | [] => false
  | c :: cs => cs.any c.meets || overlapping cs

/-- Read a name that should begin with `start`. -/
def decode (name start : String) : Except ProvenanceError Provenance :=
  match Text.dropStart? start.toList name.toList with
  | none => .error (.missingStart name)
  | some text =>
    match number? text with
    | none => .error (.malformedField name 0)
    | some (count, text) =>
      if count = 0 ∨ maxWidth < count then .error (.malformedField name 0)
      else do
        let (slots, text) ← readSlots name count 0 text
        let constituents ← readNames name slots text
        if overlapping constituents then .error (.overlap name) else .ok ⟨constituents⟩

end Provenance

/-- What is said about a name that is not that of a merged vector. A first
component is shown up to 255, and the end of a constituent up to 65535. -/
def ProvenanceError.message : ProvenanceError → String
  | .missingStart name => "'" ++ name ++ "' does not start with the merged prefix"
  | .malformedField name field =>
    "malformed field " ++ Decimal.natural field ++ " in '" ++ name ++ "'"
  | .outOfRange name index offset stop =>
    "constituent " ++ Decimal.natural index ++ " of '" ++ name ++ "' covers " ++
      Decimal.natural (min offset 255) ++ ".." ++ Decimal.natural (min stop 65535) ++
      ", outside 0.." ++ Decimal.natural Provenance.maxWidth
  | .overlap name => "constituents of '" ++ name ++ "' overlap"
  | .namesTooShort name left needed =>
    "constituent names of '" ++ name ++ "' do not add up: " ++ Decimal.natural left ++
      " characters left, " ++ Decimal.natural needed ++ " needed"
  | .notIdentifier name piece =>
    "constituent names of '" ++ name ++ "' do not add up: '" ++ piece ++
      "' is not an identifier"
  | .trailing name rest =>
    "constituent names of '" ++ name ++ "' do not add up: trailing '" ++ rest ++ "'"

end ShaderMorph
