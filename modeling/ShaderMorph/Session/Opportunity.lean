-- Opportunities of both kinds under one roof: what a scan hands out, the
-- identity under which a run reports it, and how it is applied.
import ShaderMorph.Extraction.Apply
import ShaderMorph.Mutation.Point
import ShaderMorph.Settings.Session

namespace ShaderMorph

/-- A change that can be made to a program once. -/
inductive Opportunity
  | mutation (point : MutationPoint)
  | extraction (extraction : Extraction)
deriving Repr

/-- What an opportunity is known by from one scan to the next. -/
inductive OpportunityId
  | mutation (ordinal : Nat) (expr : String)
  | extraction (vector component : String) (occurrence : Nat)
deriving DecidableEq, Repr

def OpportunityId.text : OpportunityId → String
  | .mutation ordinal expr => "mutation#" ++ Decimal.natural ordinal ++ ":" ++ expr
  | .extraction vector component occurrence =>
    "vectorize#" ++ Decimal.natural occurrence ++ ":" ++ vector ++ "/" ++ component

namespace Opportunity

def id : Opportunity → OpportunityId
  | .mutation point => .mutation point.ordinal point.text
  | .extraction x => .extraction x.vector x.component x.occurrence

/-- Apply an opportunity under the settings of a session. -/
def apply {σ : Type} [RandomSource σ] (o : Opportunity) (settings : SessionSettings)
    (p : Program) (source : σ) : Except Breach Program × σ :=
  match o with
  | .mutation point => point.apply p source
  | .extraction x => (x.apply p settings.mergedPrefix, source)

end Opportunity

/-! ## Finders -/

/-- Something that scans programs for opportunities of one kind. -/
inductive Finder
  | mutation (switches : IdentitySwitches)
  | extraction (namePrefix : String)
deriving DecidableEq, Repr

/-- The opportunities in a program, in order. -/
def Finder.find : Finder → Program → List Opportunity
  | .mutation switches, p => (p.mutationPoints switches).map .mutation
  | .extraction namePrefix, p => (p.extractions namePrefix).map .extraction

end ShaderMorph
