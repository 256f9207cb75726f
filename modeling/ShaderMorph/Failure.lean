-- Everything that can be wrong with what the library is given, under one
-- roof: settings, scopes, and the names of merged vectors.
import ShaderMorph.Extraction.Provenance
import ShaderMorph.Scope.Tree
import ShaderMorph.Settings.Session

namespace ShaderMorph

inductive Failure
  | settings (cause : SettingsError)
  | scope (cause : Redeclared)
  | provenance (cause : ProvenanceError)
deriving DecidableEq, Repr

def Failure.message : Failure → String
  | .settings cause => "Configuration error: " ++ cause.message
  | .scope cause => "Scope error: " ++ cause.message
  | .provenance cause => "Provenance error: " ++ cause.message

end ShaderMorph
