-- Taking constituents out comes to an end. Each time the vector gives way, in
-- at least one access, to a constituent, whose name is part of the merged
-- name and so has fewer bytes; all other identifiers stay as they are. What
-- goes down with every step is thus the number of bytes of all identifiers,
-- however many opportunities a step brings forth.
import ShaderMorph.Proofs.Extraction.Names
import ShaderMorph.Proofs.Session.Runs

namespace ShaderMorph

/-! ## The bytes of identifiers -/

namespace Expr

/-- The bytes of an expression that is an identifier. -/
def identifierBytes (e : Expr) : Nat :=
  match e.name? with
  | some name => name.utf8ByteSize
  | none => 0

def identifierBytesAll : List Expr → Nat
  | [] => 0
  | e :: es => e.identifierBytes + identifierBytesAll es

end Expr

/-- The bytes of all identifiers of a program. -/
def Program.identifierBytes (p : Program) : Nat := Expr.identifierBytesAll p.exprs

theorem Program.identifierBytes_eq (p : Program) :
    p.identifierBytes = Expr.identifierBytesAll (p.identifiers.map (·.expr)) := by
  unfold identifierBytes identifiers
  rw [← visits_expr]
  induction p.visits with
  | nil => rfl
  | cons v vs ih =>
    rw [List.map_cons, Expr.identifierBytesAll, ih, List.filter_cons]
    cases hn : v.expr.name? with
    | none => simp [Expr.identifierBytes, hn]
    | some name => simp [Expr.identifierBytesAll]

/-- Side by side with visits that have no more bytes, and in one case fewer. -/
theorem Expr.identifierBytesAll_lt {R : Visit → Visit → Prop} {vs vs' : List Visit}
    (h : List.Forall₂ R vs vs')
    (hle : ∀ v v', R v v' → v'.expr.identifierBytes ≤ v.expr.identifierBytes)
    {w : Visit} (hw : w ∈ vs)
    (hlt : ∀ w', R w w' → w'.expr.identifierBytes < w.expr.identifierBytes) :
    identifierBytesAll (vs'.map (·.expr)) < identifierBytesAll (vs.map (·.expr)) := by
  have htotal : ∀ {us us' : List Visit}, List.Forall₂ R us us' →
      identifierBytesAll (us'.map (·.expr)) ≤ identifierBytesAll (us.map (·.expr)) := by
    intro us us' hus
    induction hus with
    | nil => exact Nat.le_refl _
    | cons hab _ ih => exact Nat.add_le_add (hle _ _ hab) ih
  induction h with
  | nil => cases hw
  | cons hab hrest ih =>
    rcases List.mem_cons.1 hw with rfl | hw
    · exact Nat.add_lt_add_of_lt_of_le (hlt _ hab) (htotal hrest)
    · exact Nat.add_lt_add_of_le_of_lt (hle _ _ hab) (ih hw)

/-! ## One extraction -/

/-- Where something is replaced, there is an identifier in it. -/
theorem Rewritten.exists_access {heads : List Prototype} {r : Replacement} {es es' : List Event}
    {vector component : String} (h : Rewritten heads r es es')
    (hr : r.Renames vector component es) {v : Visit} (hv : .visit v ∈ es)
    (hsome : (r v.ordinal).isSome) :
    ∃ w ∈ Event.identifiers es, ∃ k, w.parent = some k ∧ (r k).isSome := by
  induction h with
  | nil => cases hv
  | declare d _ ih =>
    rcases List.mem_cons.1 hv with hv | hv
    · cases hv
    · exact ih hr.of_cons hv
  | kept u u' hk _ _ _ _ _ ih =>
    rcases List.mem_cons.1 hv with hv | hv
    · cases hv
      rw [hk] at hsome
      cases hsome
    · obtain ⟨w, hw, hparent⟩ := ih hr.of_cons hv
      refine ⟨w, ?_, hparent⟩
      rw [Event.identifiers_cons_visit]
      split
      · exact List.mem_cons_of_mem _ hw
      · exact hw
  | replaced e new scope around parent parent' k k' hk _ _ =>
    obtain ⟨⟨field, rfl⟩, -⟩ := hr.access hk
    refine ⟨⟨.ident vector, k + 1, some k, around, scope⟩, ?_, k, rfl, by simp [hk]⟩
    rw [Event.identifiers_append]
    exact List.mem_append_left _ (List.mem_singleton_self _)

/-- An identifier that goes on to stand for something has no more bytes than
before, and fewer in a replaced access. -/
theorem Visit.Carried.bytes {vector component : String} {r : Replacement} {ds ds' : List Declared}
    {target : Symbol} {v v' : Visit} (h : v.Carried vector component r ds ds' target v')
    (hlt : component.utf8ByteSize < vector.utf8ByteSize) :
    v'.expr.identifierBytes ≤ v.expr.identifierBytes ∧
      ∀ k, v.parent = some k → (r k).isSome →
        v'.expr.identifierBytes < v.expr.identifierBytes := by
  cases h with
  | kept name he he' hl _ _ =>
    rw [he, he']
    refine ⟨Nat.le_refl _, fun k hk hsome => ?_⟩
    rw [hl.2 k hk] at hsome
    cases hsome
  | access k he he' _ _ _ =>
    rw [he, he']
    exact ⟨Nat.le_of_lt hlt, fun _ _ _ => hlt⟩

/-- What is reported can be taken out. -/
theorem Extraction.exists_applyBy {p : Program} {namePrefix : String} {oracle : TypeOracle}
    {x : Extraction} (h : x ∈ p.extractionsBy namePrefix oracle) :
    ∃ p', x.applyBy p namePrefix oracle = .ok p' := by
  obtain ⟨-, p', -, happly, -⟩ := exists_applied h
  exact ⟨p', happly⟩

/-- Taking a constituent out lowers the number of bytes of all identifiers. -/
theorem Extraction.identifierBytes_lt {p p' : Program} {namePrefix : String} {oracle : TypeOracle}
    {x : Extraction} (h : x ∈ p.extractionsBy namePrefix oracle)
    (happly : x.applyBy p namePrefix oracle = .ok p') :
    p'.identifierBytes < p.identifierBytes := by
  obtain ⟨plan, q, -, hq, s, c, hc, rfl, hs, happlied⟩ := exists_applied h
  obtain rfl := Except.ok.inj (happly.symm.trans hq)
  obtain ⟨ds, ds', target, hcarried⟩ : ∃ ds ds' target, List.Forall₂
      (Visit.Carried s.declared.symbol.name c.name plan.replacement ds ds' target)
      p.identifiers p'.identifiers := by
    cases happlied with
    | reuse d _ hd _ _ hall => exact ⟨_, _, _, hs.identifiers_carried hd hall⟩
    | insert _ hfree _ I => exact ⟨_, _, _, I.identifiers_carried hs hfree hc⟩
  obtain ⟨v, hv, swizzle, hp⟩ := (s.accesses_ne_nil _).1 hs.accessed
  have hsome : (plan.replacement v.ordinal).isSome := hs.coveredBy.picks v hv swizzle hp
  have hwalk : .visit v ∈ p.walk := Program.mem_visits.1 hv
  obtain ⟨w, hw, k, hk, hreplaced⟩ := (p.walk_rewrite plan.replacement).exists_access
    (hs.renames fun _ he => he) hwalk hsome
  have hname := s.name_lt hc
  rw [p.identifierBytes_eq, p'.identifierBytes_eq]
  refine Expr.identifierBytesAll_lt hcarried (fun u u' hu => (hu.bytes hname).1) ?_
    fun w' hw' => (hw'.bytes hname).2 k hk hreplaced
  rw [Program.identifiers_eq]
  exact hw

/-! ## Many extractions -/

/-- What `n` extractions make of a program, each of them one that a scan
reports. -/
inductive Program.Reduces (namePrefix : String) : (n : Nat) → Program → Program → Prop
  | none (p : Program) : Reduces namePrefix 0 p p
  | step {n : Nat} {p q r : Program} (x : Extraction) : x ∈ p.extractions namePrefix →
    x.apply p namePrefix = .ok q → Reduces namePrefix n q r → Reduces namePrefix (n + 1) p r

/-- Each step takes at least one byte. -/
theorem Program.Reduces.length_le {namePrefix : String} {n : Nat} {p q : Program}
    (h : Reduces namePrefix n p q) : n + q.identifierBytes ≤ p.identifierBytes := by
  induction h with
  | none p => exact Nat.le_of_eq (Nat.zero_add _)
  | step x hx happly _ ih =>
    have hlt := Extraction.identifierBytes_lt hx happly
    omega

end ShaderMorph
