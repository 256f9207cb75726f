-- Settings out of texts. What is loaded has been checked.
import ShaderMorph.Settings.Json
import ShaderMorph.Settings.Yaml.Node

namespace ShaderMorph.SessionSettings

/-- Settings that were read, checked; `failure` where none could be. -/
def checked (settings : Option SessionSettings) (failure : SettingsError) :
    Except SettingsError SessionSettings := do
  match settings with
  | none => throw failure
  | some s =>
    s.check
    return s

/-- The settings in a JSON document. -/
def ofJsonText (text : String) : Except SettingsError SessionSettings :=
  checked ((Json.parse? text).bind Json.format.settings?) .badJson

/-- The settings in a YAML document. -/
def ofYamlText (text : String) : Except SettingsError SessionSettings :=
  checked ((Yaml.Node.parse? text).bind Yaml.Node.format.settings?) .badYaml

end ShaderMorph.SessionSettings
