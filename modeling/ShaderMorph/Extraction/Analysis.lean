-- What one walk finds out about merged vectors. For each vector and each of
-- its constituents it keeps the declarations of the constituent's name in
-- the frame of the vector, whether a name that means an outer variable would
-- be caught by a new declaration, and the accesses that pick components of
-- this constituent only. A constituent can be taken out when it is accessed
-- and a variable of its name, new or at hand, changes the meaning of no
-- other use of the name.
import ShaderMorph.Extraction.Opportunity
import ShaderMorph.Extraction.Provenance
import ShaderMorph.Shader.Swizzle
import ShaderMorph.Typing.Oracle
import ShaderMorph.Walk.Walk

namespace ShaderMorph

/-! ## The facts -/

/-- The declarations of a constituent's name in the frame of its vector. -/
inductive SameFrame
  /-- There is none. -/
  | absent
  /-- There is one, of the type that the constituent has. -/
  | compatible (id : Nat)
  /-- There are several, or one of another type. -/
  | incompatible
deriving DecidableEq, Repr

/-- What the name of a constituent means where the vector is accessed. -/
inductive Resolution
  | undeclared
  /-- A variable of a frame around that of the vector. -/
  | outer
  /-- A variable at the depth of the vector. -/
  | sameFrame (id : Nat)
  /-- A variable of a deeper frame. -/
  | nested
deriving DecidableEq, Repr

/-- An access to be replaced, and by what. -/
structure Access where
  ordinal : Nat
  snapshot : Expr
  replacement : Expr
deriving Repr

/-- What is known about one constituent. -/
structure ConstituentFacts where
  constituent : Constituent
  type : DataType
  sameFrame : SameFrame
  /-- A new declaration would catch a use of an outer variable. -/
  capturesOuter : Bool
  /-- The oracle does not give the type of the constituent to an access. -/
  typeMismatch : Bool
  accesses : List (Access × Resolution)
deriving Repr

/-- What is known about one merged vector. -/
structure MergedVector where
  id : Nat
  name : String
  depth : Nat
  location : DeclLocation
  occurrence : Nat
  width : Nat
  /-- It is indexed, or accessed by something that is no swizzle. -/
  opaqueUse : Bool
  constituents : List ConstituentFacts
deriving Repr

/-- A name read in an initializer: the variable being initialized, the name,
and the depth of what it means there. -/
structure InitializerRead where
  reader : Nat
  name : String
  depth : Option Nat
deriving DecidableEq, Repr

/-- Everything that the walk has found out so far. -/
structure MergeFacts where
  vectors : List MergedVector
  reads : List InitializerRead
  locations : List (Nat × DeclLocation)
deriving Repr

/-- What the analysis goes by: how merged names begin, the types of
expressions, and whether scalars may be swizzled. -/
structure MergeRules where
  namePrefix : String
  oracle : TypeOracle
  scalarSwizzles : Bool

/-! ## Declarations -/

/-- Whether one declaration of its name suits a constituent. -/
def SameFrame.ofSymbol (s : Symbol) (type : DataType) : SameFrame :=
  if s.type = type then .compatible s.id else .incompatible

/-- A further declaration of the name in the frame. -/
def SameFrame.add (f : SameFrame) (s : Symbol) (type : DataType) : SameFrame :=
  match f with
  | .absent => .ofSymbol s type
  | _ => .incompatible

/-- Take note of a declaration at the depth of a vector that is in scope. -/
def MergedVector.noteDeclaration (v : MergedVector) (d : Declared) : MergedVector :=
  if v.depth = d.scope.depth ∧ d.scope.binds v.id then
    { v with constituents := v.constituents.map fun c =>
        if c.constituent.name = d.symbol.name then
          { c with sameFrame := c.sameFrame.add d.symbol c.type }
        else c }
  else v

/-- Whether an initializer in the group of a declaration, up to its own,
reads an outer variable of this name. A constituent is declared before the
whole group, so it would catch that use. -/
def MergeFacts.groupReads (f : MergeFacts) (d : Declared) (name : String) : Bool :=
  f.reads.any fun r =>
    let inGroup := r.reader == d.symbol.id ||
      f.locations.any fun (id, location) => id == r.reader && location.precedesInGroup d.location
    inGroup && r.name == name && r.depth.any (· < d.symbol.depth)

/-- The vector that a declaration brings in, when it is a merged one: a
variable with the type of a vector and a merged name that fits its width. -/
def MergeFacts.vectorOf? (rules : MergeRules) (f : MergeFacts) (d : Declared) :
    Option MergedVector :=
  match d.symbol.type with
  | .vector elem width =>
    if d.symbol.kind = .parameter then none
    else
      match Provenance.decode d.symbol.name rules.namePrefix with
      | .error _ => none
      | .ok provenance =>
        if width < provenance.span then none
        else
          some
            { id := d.symbol.id
              name := d.symbol.name
              depth := d.symbol.depth
              location := d.location
              occurrence := f.vectors.countP (·.name == d.symbol.name)
              width
              opaqueUse := false
              constituents := provenance.constituents.map fun c =>
                let type := c.type elem
                { constituent := c
                  type
                  sameFrame :=
                    match d.scope.lookupInCurrentFrame c.name with
                    | some s => .ofSymbol s type
                    | none => .absent
                  capturesOuter := f.groupReads d c.name
                  typeMismatch := false
                  accesses := [] } }
  | _ => none

/-- Take note of a declaration. -/
def MergeFacts.noteDeclaration (rules : MergeRules) (f : MergeFacts) (d : Declared) :
    MergeFacts :=
  let f : MergeFacts :=
    { f with
      vectors := f.vectors.map (·.noteDeclaration d)
      locations := (d.symbol.id, d.location) :: f.locations }
  { f with vectors := f.vectors ++ (f.vectorOf? rules d).toList }

/-! ## Uses -/

/-- What a name means, seen from a vector at this depth. -/
def Resolution.ofLookup (depth : Nat) : Option Symbol → Resolution
  | none => .undeclared
  | some s =>
    if s.depth < depth then .outer else if s.depth = depth then .sameFrame s.id else .nested

/-- What stands for an access to a constituent once it is a variable: its
name where the access picks all of it; the constructor that repeats it where
it is one component and scalars cannot be swizzled; else a swizzle of it. -/
def Constituent.replacement? (scalarSwizzles : Bool) (c : Constituent) (type : DataType)
    (s : Swizzle) : Option Expr :=
  if s.isExactly c.offset c.width then some (.ident c.name)
  else if c.width = 1 && !scalarSwizzles then
    let repeated : DataType := .ofComponents (type.element.getD .float) s.length
    some (.call repeated.text [.ident c.name])
  else (s.shifted? c.offset).map (.member (.ident c.name) ·)

/-- Take note of an access of a vector by a swizzle. -/
def ConstituentFacts.noteAccess (rules : MergeRules) (depth : Nat) (s : Swizzle) (v : Visit)
    (c : ConstituentFacts) : ConstituentFacts :=
  if s.isWithin c.constituent.offset c.constituent.width then
    match c.constituent.replacement? rules.scalarSwizzles c.type s with
    | none => c
    | some replacement =>
      let mistyped := s.isExactly c.constituent.offset c.constituent.width &&
        rules.oracle v.expr v.scope != some c.type
      let access : Access := ⟨v.ordinal, v.expr, replacement⟩
      let meaning := Resolution.ofLookup depth (v.scope.lookup c.constituent.name)
      { c with
        typeMismatch := c.typeMismatch || mistyped
        accesses := c.accesses ++ [(access, meaning)] }
  else c

/-- Take note of a member access of a vector. -/
def MergedVector.noteMember (rules : MergeRules) (vector : MergedVector) (name : String)
    (v : Visit) : MergedVector :=
  match Swizzle.parse? name vector.width with
  | none => { vector with opaqueUse := true }
  | some s =>
    { vector with
      constituents := vector.constituents.map (·.noteAccess rules vector.depth s v) }

/-- Take note of a use of an outer variable in the scope of a vector. -/
def MergedVector.noteOuterUse (name : String) (s : Symbol) (scope : ScopeTree)
    (v : MergedVector) : MergedVector :=
  if s.depth < v.depth ∧ scope.binds v.id then
    { v with constituents := v.constituents.map fun c =>
        if c.constituent.name = name then { c with capturesOuter := true } else c }
  else v

/-- The declaration that an expression names, when it is nothing but a name. -/
def Expr.named? (e : Expr) (scope : ScopeTree) : Option Symbol := e.name?.bind scope.lookup

/-- Change the vector that a declaration brought in. -/
def MergeFacts.updateVector (f : MergeFacts) (id : Nat) (change : MergedVector → MergedVector) :
    MergeFacts :=
  { f with vectors := f.vectors.map fun v => if v.id = id then change v else v }

/-- Take note of an expression. -/
def MergeFacts.noteVisit (rules : MergeRules) (f : MergeFacts) (v : Visit) : MergeFacts :=
  match v.expr with
  | .ident name =>
    let meaning := v.scope.lookup name
    let f : MergeFacts :=
      match v.around.initializerOf with
      | some reader => { f with reads := f.reads ++ [⟨reader, name, meaning.map (·.depth)⟩] }
      | none => f
    match meaning with
    | none => f
    | some s => { f with vectors := f.vectors.map (·.noteOuterUse name s v.scope) }
  | .member base name =>
    match base.named? v.scope with
    | none => f
    | some s => f.updateVector s.id (·.noteMember rules name v)
  | .index base _ =>
    match base.named? v.scope with
    | none => f
    | some s => f.updateVector s.id ({ · with opaqueUse := true })
  | _ => f

/-- Take note of what the walk meets. -/
def MergeFacts.note (rules : MergeRules) (f : MergeFacts) : Event → MergeFacts
  | .declare d => f.noteDeclaration rules d
  | .visit v => f.noteVisit rules v

/-- Everything that a walk finds out. -/
def MergeFacts.ofEvents (rules : MergeRules) (events : List Event) : MergeFacts :=
  events.foldl (·.note rules) ⟨[], [], []⟩

/-! ## Plans -/

/-- How a constituent is taken out: the accesses to replace, and the
declaration to put its own before, unless there is one already. -/
structure ExtractionPlan where
  extraction : Extraction
  accesses : List Access
  insertBefore : Option DeclLocation
deriving Repr

/-- Whether a constituent can be taken out, and if so, the declaration that a
new one of its name goes before; none is needed where a declaration at hand
serves. -/
def MergedVector.verdict? (v : MergedVector) (c : ConstituentFacts) :
    Option (Option DeclLocation) :=
  if v.opaqueUse || c.typeMismatch || c.accesses.isEmpty then none
  else
    match c.sameFrame with
    | .incompatible => none
    | .compatible id =>
      if c.accesses.all (·.2 == .sameFrame id) then some none else none
    | .absent =>
      let free := c.accesses.all fun (_, meaning) => meaning == .undeclared || meaning == .outer
      if !c.capturesOuter && free && v.location.acceptsSibling then some (some v.location)
      else none

/-- The plan for a constituent that can be taken out. -/
def MergedVector.plan? (v : MergedVector) (c : ConstituentFacts) : Option ExtractionPlan :=
  (v.verdict? c).map fun insertBefore =>
    { extraction := ⟨v.name, c.constituent.name, c.type, v.occurrence⟩
      accesses := c.accesses.map (·.1)
      insertBefore }

/-- The plans for everything that can be taken out, vector by vector. -/
def MergeFacts.plans (f : MergeFacts) : List ExtractionPlan :=
  f.vectors.flatMap fun v => v.constituents.filterMap v.plan?

namespace Program

/-- The plans for a program by an oracle. -/
def extractionPlans (p : Program) (namePrefix : String) (oracle : TypeOracle) :
    List ExtractionPlan :=
  (MergeFacts.ofEvents ⟨namePrefix, oracle, p.version.hasScalarSwizzles⟩ p.walk).plans

/-- What can be taken out of the merged vectors of a program, by an oracle. -/
def extractionsBy (p : Program) (namePrefix : String) (oracle : TypeOracle) : List Extraction :=
  (p.extractionPlans namePrefix oracle).map (·.extraction)

/-- What can be taken out, typed from the declarations of the program. -/
def extractions (p : Program) (namePrefix : String) : List Extraction :=
  p.extractionsBy namePrefix p.declaredTypes

end Program

end ShaderMorph
