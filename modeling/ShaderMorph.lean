import ShaderMorph.Text.Strip
import ShaderMorph.Text.Blank
import ShaderMorph.Text.Identifier
import ShaderMorph.Number.Decimal
import ShaderMorph.Number.Hexadecimal
import ShaderMorph.Number.Binary64
import ShaderMorph.Number.Binary64Text
import ShaderMorph.Shader.DataType
import ShaderMorph.Shader.Version
import ShaderMorph.Shader.Operator
import ShaderMorph.Shader.Expr
import ShaderMorph.Shader.Program
import ShaderMorph.Shader.Build
import ShaderMorph.Shader.Swizzle
import ShaderMorph.Shader.Render
import ShaderMorph.Address.Place
import ShaderMorph.Address.Ordinal
import ShaderMorph.Address.Path
import ShaderMorph.Scope.Symbol
import ShaderMorph.Scope.Tree
import ShaderMorph.Walk.Site
import ShaderMorph.Walk.Signature
import ShaderMorph.Walk.Walk
import ShaderMorph.Typing.Oracle
import ShaderMorph.Breach
import ShaderMorph.Random.Source
import ShaderMorph.Random.ChaCha
import ShaderMorph.Random.Seeded
import ShaderMorph.Mutation.Identity
import ShaderMorph.Mutation.Point
import ShaderMorph.Extraction.Provenance
import ShaderMorph.Extraction.Opportunity
import ShaderMorph.Extraction.Analysis
import ShaderMorph.Extraction.Apply
import ShaderMorph.Globals.Strip
import ShaderMorph.Settings.Session
import ShaderMorph.Settings.Fields
import ShaderMorph.Settings.Json
import ShaderMorph.Settings.Yaml.Scalar
import ShaderMorph.Settings.Yaml.Token
import ShaderMorph.Settings.Yaml.Node
import ShaderMorph.Settings.Load
import ShaderMorph.Session.Opportunity
import ShaderMorph.Session.Run
import ShaderMorph.Failure
import ShaderMorph.Proofs.Address.Insertion
import ShaderMorph.Proofs.Address.Rewriting
import ShaderMorph.Proofs.Address.Search
import ShaderMorph.Proofs.Extraction.Accesses
import ShaderMorph.Proofs.Extraction.Applied
import ShaderMorph.Proofs.Extraction.Captures
import ShaderMorph.Proofs.Extraction.Faithful
import ShaderMorph.Proofs.Extraction.Names
import ShaderMorph.Proofs.Extraction.Recurrence
import ShaderMorph.Proofs.Session.Reduction
import ShaderMorph.Proofs.Mutation.Erasure
import ShaderMorph.Proofs.Mutation.Protection
import ShaderMorph.Proofs.Globals.Survivors
import ShaderMorph.Proofs.Nodes.Numbers
import ShaderMorph.Proofs.Globals.Idempotence
import ShaderMorph.Proofs.Lexical.Scopes
import ShaderMorph.Proofs.Extraction.Rule
import ShaderMorph.Proofs.Session.Freshness
import ShaderMorph.Proofs.Extraction.Identities
import ShaderMorph.Proofs.Mutation.Operands
import ShaderMorph.Proofs.Mutation.Neutral
import ShaderMorph.Proofs.Mutation.Growth
import ShaderMorph.Proofs.Extraction.Commuting
import ShaderMorph.Proofs.Extraction.Constants
import ShaderMorph.Proofs.Mutation.Staleness
import ShaderMorph.Proofs.Mutation.Versions
import ShaderMorph.Proofs.Walk.Groups
import ShaderMorph.Proofs.Extraction.FrameMates
import ShaderMorph.Proofs.Extraction.Calls
import ShaderMorph.Proofs.Lexical.Located
import ShaderMorph.Proofs.Typing.Soundness
import ShaderMorph.Proofs.Scope.Frames
import ShaderMorph.Proofs.Nodes.Locality
import ShaderMorph.Proofs.Typing.TypeNames
import ShaderMorph.Proofs.Rendering.Ambiguity
