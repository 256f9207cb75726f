-- Which vector an extraction means. It names its vector, and counts the merged
-- vectors of that name in front of it. Taking a constituent out of another
-- vector may bring in a declaration, and the name of that may be a merged one
-- again. So the count goes on to mean the same vector just as long as no
-- declaration of a merged vector of its name comes in before it.
import ShaderMorph.Proofs.Extraction.Rule

namespace ShaderMorph

/-! ## One declaration more -/

namespace Declared

/-- The id of a declaration once a new one has come in, if one has. -/
def idAfter : Option Declared → Nat → Nat
  | none, id => id
  | some new, id => new.symbol.moveId id

/-- The same variable in a program and in what became of it when a new one
came in. -/
structure Counterpart (new : Option Declared) (v v' : Declared) : Prop where
  same : v.Matches v'
  id : v'.symbol.id = idAfter new v.symbol.id

theorem idAfter_lt (new : Option Declared) {i j : Nat} :
    idAfter new i < idAfter new j ↔ i < j := by
  cases new with
  | none => exact Iff.rfl
  | some new =>
    simp only [idAfter, Symbol.moveId]
    split <;> split <;> omega

theorem id_lt_idAfter {new : Declared} {i : Nat} :
    new.symbol.id < idAfter (some new) i ↔ new.symbol.id ≤ i := by
  simp only [idAfter, Symbol.moveId]
  split <;> omega

theorem Matches.packing? {v v' : Declared} (h : v.Matches v') (namePrefix : String) :
    v'.symbol.packing? namePrefix = v.symbol.packing? namePrefix := by
  unfold Symbol.packing?
  rw [h.type, h.kind, h.name]

theorem Matches.packs {v v' : Declared} (h : v.Matches v') (namePrefix name : String) :
    v'.packs namePrefix name = v.packs namePrefix name := by
  rw [Declared.packs, Declared.packs, h.packing?, h.name]

/-- Counterparts keep their order, and what is packed into them. -/
theorem countP_counterparts {new : Option Declared} {vs vs' : List Declared}
    (h : List.Forall₂ (Counterpart new) vs vs') {namePrefix name : String} {id : Nat} :
    vs'.countP (fun d => d.packs namePrefix name && decide (d.symbol.id < idAfter new id)) =
      vs.countP (fun d => d.packs namePrefix name && decide (d.symbol.id < id)) := by
  induction h with
  | nil => rfl
  | cons hc _ ih =>
    rw [List.countP_cons, List.countP_cons, ih, hc.same.packs, hc.id]
    simp only [idAfter_lt]

end Declared

namespace Program

/-- The declarations of a program turn into their counterparts, in their order,
and the new one is the only other. -/
def Gains (p : Program) (new : Option Declared) (p' : Program) : Prop :=
  ∃ ds, p'.declared.Perm (new.toList ++ ds) ∧ List.Forall₂ (Declared.Counterpart new) p.declared ds

/-- The number of merged vectors of a name that are declared before an id. -/
def rank (p : Program) (namePrefix name : String) (id : Nat) : Nat :=
  p.declared.countP fun d => d.packs namePrefix name && decide (d.symbol.id < id)

namespace Gains

variable {p p' : Program} {new : Option Declared}

theorem counterpart (h : p.Gains new p') {v : Declared} (hv : v ∈ p.declared) :
    ∃ v' ∈ p'.declared, v.Counterpart new v' := by
  obtain ⟨ds, hperm, hds⟩ := h
  obtain ⟨v', hv', hc⟩ := forall₂_left hds hv
  exact ⟨v', hperm.mem_iff.2 (List.mem_append_right _ hv'), hc⟩

/-- A new vector of the name counts from where it comes in. -/
theorem rank_eq (h : p.Gains new p') (namePrefix name : String) (id : Nat) :
    p'.rank namePrefix name (Declared.idAfter new id) = p.rank namePrefix name id +
      new.toList.countP fun d => d.packs namePrefix name && decide (d.symbol.id ≤ id) := by
  obtain ⟨ds, hperm, hds⟩ := h
  unfold rank
  rw [hperm.countP_eq, List.countP_append, Nat.add_comm, Declared.countP_counterparts hds]
  cases new with
  | none => rfl
  | some new => simp [List.countP_cons, Declared.id_lt_idAfter]

end Gains

end Program

/-! ## What tells a vector -/

namespace Sighting

variable {namePrefix : String} {p : Program}

/-- The vectors of its name before a sighting are those with smaller ids. -/
theorem occurrence_eq_rank (s : Sighting namePrefix p.walk) :
    s.occurrence = p.rank namePrefix s.declared.symbol.name s.declared.symbol.id := by
  have hsorted := p.declared_pairwise
  rw [Program.declared_eq, s.declared_events, List.pairwise_append, List.pairwise_cons] at hsorted
  obtain ⟨-, ⟨hafter, -⟩, hbefore⟩ := hsorted
  have hzero : (Event.declared s.after).countP (fun d =>
      d.packs namePrefix s.declared.symbol.name &&
        decide (d.symbol.id < s.declared.symbol.id)) = 0 := by
    rw [List.countP_eq_zero]
    intro d hd
    simp [Nat.le_of_lt (hafter d hd)]
  rw [Program.rank, Program.declared_eq, s.declared_events, List.countP_append,
    List.countP_cons_of_neg (by simp), hzero]
  refine List.countP_congr fun d hd => ?_
  simp [hbefore d hd _ List.mem_cons_self]

/-- A merged vector is told by its name and its number among those of that
name. -/
theorem declared_eq_of_occurrence {s t : Sighting namePrefix p.walk}
    (hname : s.declared.symbol.name = t.declared.symbol.name)
    (hoccurrence : s.occurrence = t.occurrence) : s.declared = t.declared := by
  let rules : MergeRules := ⟨namePrefix, p.declaredTypes, p.version.hasScalarSwizzles⟩
  have hs := (MergeFacts.mem_vectors rules).2 ⟨s, rfl⟩
  have ht := (MergeFacts.mem_vectors rules).2 ⟨t, rfl⟩
  have hsymm : Std.Symm fun a b : MergedVector => a.name = b.name → a.occurrence ≠ b.occurrence :=
    ⟨fun a b hab hname => (hab hname.symm).symm⟩
  have hvector : s.vector rules = t.vector rules := by
    by_contra hne
    exact (MergeFacts.vectors_pairwise rules p.walk).forall hs ht hne hname hoccurrence
  exact Program.declared_ext s.declared_mem t.declared_mem (congrArg (·.id) hvector)

end Sighting

/-- A declaration that comes in is the only one. -/
theorem Sighting.Inserted.gains {namePrefix : String} {p p' : Program}
    {s : Sighting namePrefix p.walk} {rules : MergeRules} {c : Constituent}
    {plan : ExtractionPlan} (I : s.Inserted c plan.replacement p') (hfree : s.Free rules c)
    (hc : c ∈ s.packing.constituents) : p.Gains (some I.new) p' := by
  refine ⟨I.rest, ?_, (I.declared_matches hfree hc).imp ?_⟩
  · rw [I.declared_eq]
    exact List.perm_middle
  · rintro d d' ⟨hsymbol, hsame⟩
    exact ⟨hsame, congrArg (·.id) hsymbol⟩

/-! ## Taking out what was reported -/

namespace Program

variable {p : Program} {namePrefix : String} {oracle : TypeOracle}

/-- The scan reports an extraction, and it is one from the vector `v`. -/
def Extracts (p : Program) (namePrefix : String) (oracle : TypeOracle) (v : Declared)
    (x : Extraction) : Prop :=
  ∃ c plan, p.Reports namePrefix oracle v c plan ∧ plan.extraction = x

theorem extracts_iff {v : Declared} {x : Extraction} : p.Extracts namePrefix oracle v x ↔
    ∃ vector ∈ (MergeFacts.ofEvents ⟨namePrefix, oracle, p.version.hasScalarSwizzles⟩
        p.walk).vectors,
      vector.id = v.symbol.id ∧ x ∈ vector.plans.map (·.extraction) := by
  constructor
  · rintro ⟨c, plan, ⟨vector, hvector, hid, facts, hfacts, -, hplan⟩, rfl⟩
    exact ⟨vector, hvector, hid, List.mem_map_of_mem (List.mem_filterMap.2 ⟨facts, hfacts, hplan⟩)⟩
  · rintro ⟨vector, hvector, hid, hx⟩
    obtain ⟨plan, hplan, rfl⟩ := List.mem_map.1 hx
    obtain ⟨facts, hfacts, hplan⟩ := List.mem_filterMap.1 hplan
    exact ⟨_, plan, ⟨vector, hvector, hid, facts, hfacts, rfl, hplan⟩, rfl⟩

theorem Extracts.exists_sighting {v : Declared} (hv : v ∈ p.declared) {x : Extraction}
    (h : p.Extracts namePrefix oracle v x) : ∃ s : Sighting namePrefix p.walk,
      s.declared = v ∧ v.symbol.name = x.vector ∧ s.occurrence = x.occurrence := by
  obtain ⟨c, plan, hreports, rfl⟩ := h
  obtain ⟨s, rfl, -, hplan⟩ := (reports_iff hv).1 hreports
  have hx := ((s.plan?_eq_some _ c).1 hplan).extraction
  exact ⟨s, rfl, (congrArg (·.vector) hx).symm, (congrArg (·.occurrence) hx).symm⟩

end Program

namespace Extraction

variable {p p' : Program} {namePrefix : String} {oracle oracle' : TypeOracle}

/-- Taking out what was reported brings in one declaration at most. -/
theorem exists_gains {x : Extraction} (h : x ∈ p.extractionsBy namePrefix oracle) :
    ∃ p' new, x.applyBy p namePrefix oracle = .ok p' ∧ p.Gains new p' ∧
      ∀ d ∈ new, d.symbol.name = x.component ∧ d.symbol.type = x.type := by
  obtain ⟨plan, p', -, happly, s, c, hc, rfl, hs, happlied⟩ := exists_applied h
  cases happlied with
  | reuse d =>
    refine ⟨_, none, happly, ⟨p.declared, ?_, List.forall₂_same.2 fun d _ => ⟨.refl d, rfl⟩⟩,
      by simp⟩
    rw [Program.declared_rewrite]
    exact List.Perm.refl _
  | insert _ hfree _ I =>
    refine ⟨p', some I.new, happly, I.gains hfree hc, ?_⟩
    rintro d hd
    obtain rfl := Option.mem_some.1 hd
    exact ⟨I.name_eq, I.type_eq⟩

/-- An extraction that is reported before and after a declaration came in is
one from the same vector unless the new declaration is a merged vector of that
name, before it. -/
theorem counterpart_iff {new : Option Declared} (hgains : p.Gains new p') {y : Extraction}
    {v v' : Declared} (hv : v ∈ p.declared) (hv' : v' ∈ p'.declared)
    (hy : p.Extracts namePrefix oracle v y) (hy' : p'.Extracts namePrefix oracle' v' y) :
    v.Counterpart new v' ↔
      ∀ d ∈ new, d.packs namePrefix y.vector = true → v.symbol.id < d.symbol.id := by
  obtain ⟨s, rfl, hname, hocc⟩ := hy.exists_sighting hv
  obtain ⟨s', rfl, hname', hocc'⟩ := hy'.exists_sighting hv'
  have hrank := hgains.rank_eq namePrefix y.vector s.declared.symbol.id
  have hshift : (∀ d ∈ new, d.packs namePrefix y.vector = true →
      s.declared.symbol.id < d.symbol.id) ↔ new.toList.countP (fun d =>
        d.packs namePrefix y.vector && decide (d.symbol.id ≤ s.declared.symbol.id)) = 0 := by
    rw [List.countP_eq_zero]
    simp
  rw [hshift, ← Nat.add_eq_left, ← hrank, ← hname, ← s.occurrence_eq_rank, hocc, ← hocc']
  constructor
  · intro hc
    rw [← hc.id, hname, ← hname', s'.occurrence_eq_rank]
  · -- The counterpart of `v` has the count of `v` again, and no other vector of
    -- the name has it.
    intro hstays
    obtain ⟨w, hw, hc⟩ := hgains.counterpart hv
    obtain ⟨t, rfl, -⟩ := Program.exists_sighting hw ((hc.same.packing? namePrefix).trans s.packed)
    have ht : t.declared.symbol.name = s'.declared.symbol.name :=
      hc.same.name.trans (hname.trans hname'.symm)
    have hoccurrence : t.occurrence = s'.occurrence := by
      rw [t.occurrence_eq_rank, hc.id, hc.same.name]
      exact hstays
    rwa [← Sighting.declared_eq_of_occurrence ht hoccurrence]

/-- An extraction that was reported can be applied, and brings in one
declaration at most. Whatever else was reported, and is reported afterwards,
means the vector that it meant before, but for one case: the declaration that
came in is itself a merged vector of that name, and is declared in front. So an
extraction keeps its meaning when others are applied whose variable has another
name than its vector. -/
theorem applyBy_keeps_identity_iff {x : Extraction}
    (h : x ∈ p.extractionsBy namePrefix oracle) :
    ∃ p' new, x.applyBy p namePrefix oracle = .ok p' ∧ p.Gains new p' ∧
      (∀ d ∈ new, d.symbol.name = x.component ∧ d.symbol.type = x.type) ∧
      ∀ (y : Extraction) (before after : TypeOracle), ∀ v ∈ p.declared, ∀ v' ∈ p'.declared,
        p.Extracts namePrefix before v y → p'.Extracts namePrefix after v' y →
          (v.Counterpart new v' ↔
              ∀ d ∈ new, d.packs namePrefix y.vector = true → v.symbol.id < d.symbol.id) ∧
            (x.component ≠ y.vector → v.Counterpart new v') := by
  obtain ⟨p', new, happly, hgains, hnew⟩ := exists_gains h
  refine ⟨p', new, happly, hgains, hnew, fun y before after v hv v' hv' hy hy' => ?_⟩
  have hiff := counterpart_iff hgains hv hv' hy hy'
  refine ⟨hiff, fun hne => hiff.2 fun d hd hpacks => ?_⟩
  have hname : d.symbol.name = y.vector := beq_iff_eq.1 ((Bool.and_eq_true _ _).mp hpacks).2
  exact absurd ((hnew d hd).1.symm.trans hname) hne

end Extraction

/-! ## A merged vector inside a merged vector -/

/-- A vector with a merged name, packed into another one, and a vector of that
name in a function behind it. -/
def Program.mergedInMerged : Program :=
  let outer := "GLF_merged1_0_2_18GLF_merged1_0_1_1b"
  let inner := "GLF_merged1_0_1_1b"
  ⟨.essl300, [
    .define .void "f" [] [.declare (.vector .float 2) outer,
      .expr (.member (.member (.ident outer) "xy") "x")],
    .define .void "g" [] [.declare (.vector .float 2) inner, .expr (.member (.ident inner) "x")]]⟩

namespace Extraction

/-- The inner vector of the outer one. -/
def innerVector : Extraction :=
  ⟨"GLF_merged1_0_2_18GLF_merged1_0_1_1b", "GLF_merged1_0_1_1b", .vector .float 2, 0⟩

/-- The float of the first vector with the name of the inner one. -/
def innerFloat : Extraction := ⟨"GLF_merged1_0_1_1b", "b", .scalar .float, 0⟩

/-- The inner vector of the outer one stays what it was when the float of the
other one is taken out. -/
theorem applyBy_keeps_identity_iff_nested :
    innerFloat ∈ Program.mergedInMerged.extractions "GLF_merged" ∧
      ∃ p' new, innerFloat.apply .mergedInMerged "GLF_merged" = .ok p' ∧
        ∀ v ∈ Program.mergedInMerged.declared, ∀ v' ∈ p'.declared,
          Program.mergedInMerged.Extracts "GLF_merged" Program.mergedInMerged.declaredTypes v
            innerVector →
          p'.Extracts "GLF_merged" p'.declaredTypes v' innerVector → v.Counterpart new v' := by
  have hx : innerFloat ∈ Program.mergedInMerged.extractions "GLF_merged" := by decide +kernel
  obtain ⟨p', new, happly, -, -, hkeeps⟩ := applyBy_keeps_identity_iff hx
  exact ⟨hx, p', new, happly, fun v hv v' hv' hy hy' =>
    (hkeeps innerVector _ _ v hv v' hv' hy hy').2 (by decide)⟩

/-- When the inner vector of the outer one is taken out, the float means that
vector, and no longer the one in the function behind. -/
theorem innerFloat_moves :
    innerVector ∈ Program.mergedInMerged.extractions "GLF_merged" ∧
      innerFloat ∈ Program.mergedInMerged.extractions "GLF_merged" ∧
      innerVector.vector ≠ innerFloat.vector ∧
      ∃ p' new, innerVector.apply .mergedInMerged "GLF_merged" = .ok p' ∧
        Program.mergedInMerged.Gains (some new) p' ∧
        p'.Extracts "GLF_merged" p'.declaredTypes new innerFloat ∧
        ∀ v : Declared, ¬v.Counterpart (some new) new := by
  have hx : innerVector ∈ Program.mergedInMerged.extractions "GLF_merged" := by decide +kernel
  have hy : innerFloat ∈ Program.mergedInMerged.extractions "GLF_merged" := by decide +kernel
  obtain ⟨p', new, happly, hgains, -⟩ := exists_gains hx
  have hrun : (innerVector.apply .mergedInMerged "GLF_merged").toOption.any (fun p' => decide (
      (∀ d ∈ p'.declared, d.symbol.name = innerVector.vector → d.symbol.id = 1) ∧
        ∃ v ∈ (MergeFacts.ofEvents ⟨"GLF_merged", p'.declaredTypes, p'.version.hasScalarSwizzles⟩
          p'.walk).vectors, v.id = 0 ∧ innerFloat ∈ v.plans.map (·.extraction))) = true := by
    decide +kernel
  rw [apply, happly] at hrun
  obtain ⟨houter, vector, hvector, hid, hreported⟩ := of_decide_eq_true hrun
  have hfirst : ∃ d ∈ Program.mergedInMerged.declared,
      d.symbol.name = innerVector.vector ∧ d.symbol.id = 0 := by decide +kernel
  obtain ⟨d, hd, hname, hzero⟩ := hfirst
  obtain ⟨d', hd', hc⟩ := hgains.counterpart hd
  have hone := houter d' hd' (hc.same.name.trans hname)
  rw [hc.id, hzero] at hone
  cases new with
  | none => cases hone
  | some new =>
    have hnew : new.symbol.id = 0 := by
      by_contra hne
      rw [Declared.idAfter, Symbol.moveId_of_lt (Nat.pos_of_ne_zero hne)] at hone
      cases hone
    refine ⟨hx, hy, by decide, p', new, happly, hgains, Program.extracts_iff.2 ?_, ?_⟩
    · exact ⟨vector, hvector, hid.trans hnew.symm, hreported⟩
    · exact fun v hv => Symbol.moveId_ne _ _ hv.id.symm

end Extraction

end ShaderMorph
