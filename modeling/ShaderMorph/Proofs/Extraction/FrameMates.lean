-- A frame that declares the name of a constituent more than once. Whatever
-- stands behind the vector is counted, each declaration on its own. Of what
-- stands in front of it only the newest is: the others are hidden by it, and
-- the scan asks the scope for the name once.
import ShaderMorph.Proofs.Extraction.Rule

namespace ShaderMorph

namespace Program

variable {p : Program} {v d d' : Declared} {name : String}

/-! ## What is counted -/

/-- A declaration behind the vector is counted. -/
theorem FrameMate.counted (h : p.FrameMate v name d)
    (hbehind : d.symbol ∉ ScopeEntry.innermost v.scope.entries) : p.Counted v name d :=
  ⟨h, fun hin => absurd hin hbehind⟩

/-- Of the declarations in front of the vector the newest is counted. -/
theorem FrameMate.exists_newest (hv : v ∈ p.declared) (h : p.FrameMate v name d)
    (hin : d.symbol ∈ ScopeEntry.innermost v.scope.entries) :
    ∃ e ∈ p.declared, v.scope.lookupInCurrentFrame name = some e.symbol ∧
      p.Counted v name e := by
  obtain ⟨u, hu⟩ := h.exists_lookup hin
  obtain ⟨hmem, hname⟩ := mem_innermost_of_lookup hu
  obtain ⟨e, he, rfl, -⟩ := declared_of_bound (mem_declared.1 hv)
    (ScopeEntry.innermost_subset _ hmem)
  exact ⟨e, he, hu, ⟨he, hname, Or.inl hmem⟩, fun _ => hu⟩

/-- Where all declarations of the name stand in front of the vector, only the
newest of them is counted. -/
theorem counted_iff_of_front
    (hfront : ∀ e, p.FrameMate v name e → e.symbol ∈ ScopeEntry.innermost v.scope.entries)
    {e : Declared} (he : p.Counted v name e) : p.Counted v name d ↔ d = e := by
  refine ⟨fun hd => ?_, fun h => h ▸ he⟩
  have hsame := (hd.newest (hfront d hd.mate)).symm.trans (he.newest (hfront e he.mate))
  exact declared_ext hd.mate.declared he.mate.declared
    (congrArg Symbol.id (Option.some.inj hsame))

/-- A declaration behind the vector is not the only one that is counted, when
there is another one, on whichever side. -/
theorem FrameMate.exists_other (hv : v ∈ p.declared) (hd : p.FrameMate v name d)
    (hd' : p.FrameMate v name d') (hne : d ≠ d')
    (hbehind : d.symbol ∉ ScopeEntry.innermost v.scope.entries) :
    ∃ e, p.Counted v name e ∧ e ≠ d := by
  by_cases hin : d'.symbol ∈ ScopeEntry.innermost v.scope.entries
  · obtain ⟨e, -, hnewest, he⟩ := hd'.exists_newest hv hin
    refine ⟨e, he, ?_⟩
    rintro rfl
    exact hbehind (mem_innermost_of_lookup hnewest).1
  · exact ⟨d', hd'.counted hin, hne.symm⟩

/-- Of several declarations just one is counted when all of them stand in
front of the vector. -/
theorem counted_unique_iff (hv : v ∈ p.declared) (hd : p.FrameMate v name d)
    (hd' : p.FrameMate v name d') (hne : d ≠ d') {e : Declared} :
    (∀ e', p.Counted v name e' ↔ e' = e) ↔
      (∀ e', p.FrameMate v name e' → e'.symbol ∈ ScopeEntry.innermost v.scope.entries) ∧
        p.Counted v name e := by
  constructor
  · intro hone
    refine ⟨fun e' he' => ?_, (hone e).2 rfl⟩
    by_contra hbehind
    obtain rfl := (hone e').1 (he'.counted hbehind)
    -- one of the two is not this one
    obtain ⟨o, ho, hoe⟩ : ∃ o, p.FrameMate v name o ∧ e' ≠ o := by
      by_cases h : e' = d
      · exact ⟨d', hd', h ▸ hne⟩
      · exact ⟨d, hd, h⟩
    obtain ⟨f, hf, hfe⟩ := he'.exists_other hv ho hoe hbehind
    exact hfe ((hone f).1 hf)
  · rintro ⟨hfront, he⟩ e'
    exact counted_iff_of_front hfront he

/-! ## What is reported -/

/-- When the frame of a vector declares the name of a constituent more than
once, the constituent is reported just when all these declarations stand in
front of the vector and the newest of them serves. A single one behind the
vector keeps it from being reported. -/
theorem exists_reports_of_mates (namePrefix : String) (oracle : TypeOracle) {c : Constituent}
    (hv : v ∈ p.declared) (hd : p.FrameMate v c.name d) (hd' : p.FrameMate v c.name d')
    (hne : d ≠ d') :
    (∃ plan, p.Reports namePrefix oracle v c plan) ↔
      (∀ e, p.FrameMate v c.name e → e.symbol ∈ ScopeEntry.innermost v.scope.entries) ∧
        ∃ elem width, p.Accessible namePrefix oracle v elem width c ∧
          ∃ e ∈ p.declared, v.scope.lookupInCurrentFrame c.name = some e.symbol ∧
            p.Serves v elem width c e := by
  have hinsert : ∀ width, ¬ p.Insertable v width c := fun width h => h.frame d hd
  simp only [exists_reports_iff_counted hv, counted_unique_iff hv hd hd' hne, hinsert, or_false]
  constructor
  · rintro ⟨elem, width, haccessible, e, ⟨hfront, he⟩, hserves⟩
    exact ⟨hfront, elem, width, haccessible, e, he.mate.declared,
      he.newest (hfront e he.mate), hserves⟩
  · rintro ⟨hfront, elem, width, haccessible, e, he, hnewest, hserves⟩
    obtain ⟨hin, hname⟩ := mem_innermost_of_lookup hnewest
    exact ⟨elem, width, haccessible, e,
      ⟨hfront, ⟨he, hname, Or.inl hin⟩, fun _ => hnewest⟩, hserves⟩

/-- A merged vector of two floats between other declarations, of which the
first one, `a`, is read. -/
def mergedBetween (front behind : List Stmt) : Program :=
  let name := "GLF_merged2_0_1_1_1_1_1ab"
  ⟨.essl300, [.define .void "main" []
    (front ++ .declare (.vector .float 2) name :: behind ++ [.expr (.member (.ident name) "x")])]⟩

/-- A float named like the first one of the vector. -/
def floatNamedA : Stmt := .declare (.scalar .float) "a"

def floatAround : Program := mergedBetween [floatNamedA] [floatNamedA]

def floatsInFront : Program := mergedBetween [floatNamedA, floatNamedA] []

theorem exists_reports_of_mates_around :
    ∃ v d d' : Declared, ∃ c : Constituent, v ∈ floatAround.declared ∧
      floatAround.FrameMate v c.name d ∧ floatAround.FrameMate v c.name d' ∧ d ≠ d' ∧
      ¬∃ plan, floatAround.Reports "GLF_merged" floatAround.declaredTypes v c plan := by
  have hframe : ∃ v ∈ floatAround.declared,
      ∃ d ∈ floatAround.declared,
      ∃ d' ∈ floatAround.declared,
        d.symbol.name = "a" ∧ d.symbol ∈ ScopeEntry.innermost v.scope.entries ∧
        d'.symbol.name = "a" ∧ d'.symbol ∉ ScopeEntry.innermost v.scope.entries ∧
        d'.symbol.depth = v.symbol.depth ∧ d'.scope.binds v.symbol.id = true := by decide +kernel
  obtain ⟨v, hv, d, hd, d', hd', hname, hin, hname', hbehind, hdepth, hbinds⟩ := hframe
  have hmate : floatAround.FrameMate v "a" d := ⟨hd, hname, Or.inl hin⟩
  have hmate' : floatAround.FrameMate v "a" d' :=
    ⟨hd', hname', Or.inr ⟨hdepth, hbinds⟩⟩
  have hne : d ≠ d' := fun h => hbehind (h ▸ hin)
  refine ⟨v, d, d', ⟨"a", 0, 1⟩, hv, hmate, hmate', hne, fun h => ?_⟩
  exact hbehind (((exists_reports_of_mates _ _ hv hmate hmate' hne).1 h).1 d' hmate')

/-- With both of them in front of the vector, `a` is reported. -/
theorem floatsInFront_reports :
    ∃ v d d' : Declared, ∃ c : Constituent, v ∈ floatsInFront.declared ∧
      floatsInFront.FrameMate v c.name d ∧ floatsInFront.FrameMate v c.name d' ∧ d ≠ d' ∧
      ∃ plan, floatsInFront.Reports "GLF_merged" floatsInFront.declaredTypes v c plan := by
  have hframe : ∃ v ∈ floatsInFront.declared,
      ∃ d ∈ floatsInFront.declared,
      ∃ d' ∈ floatsInFront.declared,
        d.symbol.name = "a" ∧ d.symbol ∈ ScopeEntry.innermost v.scope.entries ∧
        d'.symbol.name = "a" ∧ d'.symbol ∈ ScopeEntry.innermost v.scope.entries ∧
        d.symbol.id ≠ d'.symbol.id ∧
        ∃ vector ∈ (MergeFacts.ofEvents ⟨"GLF_merged", floatsInFront.declaredTypes, false⟩
            floatsInFront.walk).vectors,
          vector.id = v.symbol.id ∧ ∃ facts ∈ vector.constituents,
            facts.constituent = ⟨"a", 0, 1⟩ ∧ (vector.plan? facts).isSome := by decide +kernel
  obtain ⟨v, hv, d, hd, d', hd', hname, hin, hname', hin', hne, vector, hvector, hid, facts,
    hfacts, hc, hplan⟩ := hframe
  obtain ⟨plan, hplan⟩ := Option.isSome_iff_exists.1 hplan
  exact ⟨v, d, d', ⟨"a", 0, 1⟩, hv, ⟨hd, hname, Or.inl hin⟩, ⟨hd', hname', Or.inl hin'⟩,
    fun h => hne (congrArg (·.symbol.id) h), plan, vector, hvector, hid, facts, hfacts, hc, hplan⟩

end Program

end ShaderMorph
