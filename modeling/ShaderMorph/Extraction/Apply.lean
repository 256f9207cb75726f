-- Taking a constituent out of a merged vector. The program is scanned anew,
-- so the plan fits it: the accesses are replaced, the last one first, since
-- that leaves the numbers of the others as they are, and then the constituent
-- is declared right before the vector, unless a declaration at hand serves.
-- A write through the vector becomes a write of the new variable, and no
-- statement is taken away.
import ShaderMorph.Address.Ordinal
import ShaderMorph.Breach
import ShaderMorph.Extraction.Analysis

namespace ShaderMorph

/-- Replace one access, if it is still what it was. -/
def Access.apply (a : Access) (p : Program) : Except Breach Program :=
  match p.exprPlace? a.ordinal with
  | some place =>
    if place.part.same a.snapshot then .ok (place.put a.replacement)
    else .error (.accessMoved a.ordinal a.snapshot.text)
  | none => .error (.accessMoved a.ordinal a.snapshot.text)

namespace Program

/-- Replace accesses, the last one first. -/
def replaceAccesses (p : Program) (accesses : List Access) : Except Breach Program :=
  accesses.foldr (fun a p => p.bind a.apply) (.ok p)

/-- Declare a variable right before the declaration at a location. -/
def declareBefore (p : Program) (location : DeclLocation) (name : String) (type : DataType) :
    Except Breach Program :=
  let group : VariableGroup := ⟨[], type, [⟨name, none, none⟩]⟩
  match location with
  | .global index _ =>
    if index ≤ p.declarations.length then
      .ok { p with declarations := p.declarations.insertIdx index (.variables group) }
    else .error (.noSibling name location)
  | .block path _ =>
    match p.insertStmt? path (.decl group) with
    | some p => .ok p
    | none => .error (.vectorMissing location)
  | _ => .error (.noSibling name location)

end Program

/-- Carry out a plan. -/
def ExtractionPlan.apply (plan : ExtractionPlan) (p : Program) : Except Breach Program := do
  let p ← p.replaceAccesses plan.accesses
  match plan.insertBefore with
  | none => return p
  | some location => p.declareBefore location plan.extraction.component plan.extraction.type

namespace Extraction

/-- Take a constituent out, when a scan of the program with this oracle
reports just this extraction. -/
def applyBy (x : Extraction) (p : Program) (namePrefix : String) (oracle : TypeOracle) :
    Except Breach Program :=
  match (p.extractionPlans namePrefix oracle).find? (·.extraction == x) with
  | some plan => plan.apply p
  | none => .error (.staleExtraction x.describe)

/-- Take a constituent out, typing expressions from declarations. -/
def apply (x : Extraction) (p : Program) (namePrefix : String) : Except Breach Program :=
  x.applyBy p namePrefix p.declaredTypes

end Extraction

end ShaderMorph
