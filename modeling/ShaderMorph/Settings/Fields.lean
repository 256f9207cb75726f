-- Settings out of documents. A format tells what the values of its documents
-- are as numbers, truth values, texts and records; the rest is the same for
-- all formats: which fields there are, what an absent one means, and which
-- unknown or repeated ones are let through.
import ShaderMorph.Settings.Session

namespace ShaderMorph

/-- How the values `v` of a document format are understood. Each function
answers nothing for a value of another sort. -/
structure DocumentFormat (v : Type) where
  /-- A whole number from zero on. -/
  natural? : v → Option Nat
  truth? : v → Option Bool
  text? : v → Option String
  /-- The fields of a record; the names are those that it should have, in
  order, for formats where they may be left out. -/
  record? : (names : List String) → v → Option (List (String × v))

namespace DocumentFormat

variable {v : Type} (f : DocumentFormat v)

/-- A whole number of at most 64 bits. -/
def word? (value : v) : Option Nat := do
  let n ← f.natural? value
  if n < Nat.pow 2 64 then some n else none

/-- The fields of a record that have one of the names, none of them twice.
Other fields are passed over. -/
def known? (names : List String) (value : v) : Option (List (String × v)) := do
  let fields ← f.record? names value
  let known := fields.filter fun field => names.contains field.1
  if (known.map (·.1)).Nodup then some known else none

/-- What a field holds, read by `read`; where it is absent, `absent`. -/
def field? (fields : List (String × v)) (name : String) (absent : α) (read : v → Option α) :
    Option α :=
  match fields.find? (·.1 == name) with
  | some (_, value) => read value
  | none => some absent

/-- Which identities are wanted. -/
def identities? (value : v) : Option IdentitySwitches := do
  let fields ← f.known? ["parenthesize", "arithmetic_identity", "boolean_identity"] value
  let parenthesize ← field? fields "parenthesize" true f.truth?
  let arithmetic ← field? fields "arithmetic_identity" true f.truth?
  let boolean ← field? fields "boolean_identity" true f.truth?
  return ⟨parenthesize, arithmetic, boolean⟩

/-- How merged names begin. -/
def mergedPrefix? (value : v) : Option String := do
  let fields ← f.known? ["merged_prefix"] value
  field? fields "merged_prefix" SessionSettings.defaultMergedPrefix f.text?

/-- The settings of a session. Here a field of another name is an error. -/
def settings? (value : v) : Option SessionSettings := do
  let names := ["seed", "injection_switch", "max_steps", "mutation", "reduction"]
  let all ← f.record? names value
  if all.any fun field => !names.contains field.1 then none
  let fields ← f.known? names value
  let d := SessionSettings.default
  let seed ← field? fields "seed" d.seed fun value => (f.word? value).map UInt64.ofNat
  let injectionSwitch ← field? fields "injection_switch" d.injectionSwitch f.text?
  let maxSteps ← field? fields "max_steps" d.maxSteps f.word?
  let identities ← field? fields "mutation" d.identities f.identities?
  let mergedPrefix ← field? fields "reduction" d.mergedPrefix f.mergedPrefix?
  return ⟨seed, injectionSwitch, maxSteps, identities, mergedPrefix⟩

end DocumentFormat

end ShaderMorph
