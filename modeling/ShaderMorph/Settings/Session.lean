-- The settings of a session: the seed of its random choices, the global that
-- always stays, how many steps it may take, which identities it may use, and
-- how the names of merged vectors begin. Settings are checked before use.
import ShaderMorph.Globals.Strip
import ShaderMorph.Mutation.Identity
import ShaderMorph.Text.Identifier

namespace ShaderMorph

structure SessionSettings where
  seed : UInt64
  injectionSwitch : String
  maxSteps : Nat
  identities : IdentitySwitches
  mergedPrefix : String
deriving DecidableEq, Repr

namespace SessionSettings

/-- How the names of merged vectors begin, unless it is set. -/
def defaultMergedPrefix : String := "GLF_merged"

/-- The settings where nothing is set. -/
def default : SessionSettings := ⟨0, defaultSwitch, 1000, .all, defaultMergedPrefix⟩

/-- The most steps that may be asked for. -/
def stepLimit : Nat := 1000000

end SessionSettings

/-! ## What can be wrong -/

/-- Why settings cannot be used. -/
inductive SettingsError
  /-- The text is not a document of the format, or has not the shape of
  settings. -/
  | badJson
  | badYaml
  /-- A field that names something is no identifier. -/
  | notIdentifier (field value : String)
  /-- No step is allowed, or too many are. -/
  | stepsOutOfRange (value : Nat)
  /-- All identities are switched off. -/
  | noIdentity
  /-- The number that follows the start of a merged name would run into it. -/
  | prefixEndsInDigit (value : String)
deriving DecidableEq, Repr

def SettingsError.message : SettingsError → String
  | .badJson => "JSON parsing error"
  | .badYaml => "YAML parsing error"
  | .notIdentifier field value =>
    "Field '" ++ field ++ "' must be a shader identifier, got '" ++ value ++ "'"
  | .stepsOutOfRange value =>
    "Invalid range for field 'max_steps': " ++ Decimal.natural value ++ " not in 1..=" ++
      Decimal.natural SessionSettings.stepLimit ++
      ". A session must be allowed at least one step"
  | .noIdentity =>
    "No mutation identity enabled. Enable at least one of parenthesize, " ++
      "arithmetic_identity, boolean_identity"
  | .prefixEndsInDigit value =>
    "Validation error: merged_prefix '" ++ value ++
      "' must not end in a digit; the constituent count follows it"

/-! ## Checking -/

/-- A field must hold an identifier. -/
def checkIdentifier (field value : String) : Except SettingsError Unit :=
  if Text.isIdentifier value.toList then .ok () else .error (.notIdentifier field value)

/-- At least one family of identities must be wanted. -/
def IdentitySwitches.check (s : IdentitySwitches) : Except SettingsError Unit :=
  if s.parenthesize || s.arithmetic || s.boolean then .ok () else .error .noIdentity

/-- The start of merged names must be an identifier and not end in a digit. -/
def checkMergedPrefix (value : String) : Except SettingsError Unit := do
  checkIdentifier "merged_prefix" value
  if value.toList.getLast?.any Char.isDigit then .error (.prefixEndsInDigit value)

namespace SessionSettings

/-- Check everything; the first field that is wrong is reported. -/
def check (s : SessionSettings) : Except SettingsError Unit := do
  checkIdentifier "injection_switch" s.injectionSwitch
  if s.maxSteps = 0 ∨ stepLimit < s.maxSteps then throw (.stepsOutOfRange s.maxSteps)
  s.identities.check
  checkMergedPrefix s.mergedPrefix

/-! ## Writing -/

/-- The identifiers that stand for something else when they are written
without quotes. -/
def reservedWords : List String :=
  ["true", "True", "TRUE", "false", "False", "FALSE", "null", "Null", "NULL"]

/-- An identifier as a value in YAML. -/
def yamlValue (text : String) : String :=
  if reservedWords.contains text then "'" ++ text ++ "'" else text

/-- A truth value in YAML. -/
def yamlTruth (b : Bool) : String := if b then "true" else "false"

/-- Settings as a YAML document, every field on a line of its own. -/
def toYaml (s : SessionSettings) : String :=
  "seed: " ++ Decimal.natural s.seed.toNat ++ "\n" ++
    "injection_switch: " ++ yamlValue s.injectionSwitch ++ "\n" ++
    "max_steps: " ++ Decimal.natural s.maxSteps ++ "\n" ++
    "mutation:\n" ++
    "  parenthesize: " ++ yamlTruth s.identities.parenthesize ++ "\n" ++
    "  arithmetic_identity: " ++ yamlTruth s.identities.arithmetic ++ "\n" ++
    "  boolean_identity: " ++ yamlTruth s.identities.boolean ++ "\n" ++
    "reduction:\n" ++
    "  merged_prefix: " ++ yamlValue s.mergedPrefix ++ "\n"

end SessionSettings

end ShaderMorph
