-- Sessions that take merged vectors apart. As long as the source answers
-- within its bounds each step takes out something that was reported, and so at
-- least one byte off the identifiers of the program. A session that may take
-- more steps than there are bytes ends where a scan finds nothing, on what its
-- steps have made of the program.
import ShaderMorph.Proofs.Extraction.Measure
import ShaderMorph.Proofs.Session.Runs

namespace ShaderMorph.Session

variable {σ : Type}

/-- A session that scans for the merged vectors of its settings, and for
nothing else. -/
def Reducing (s : Session σ) : Prop := s.finders = [.extraction s.settings.mergedPrefix]

theorem Reducing.scan_eq {s : Session σ} (h : s.Reducing) (p : Program) :
    s.scan p = (p.extractions s.settings.mergedPrefix).map .extraction := by
  unfold scan
  rw [h]
  simp [Finder.find]

variable [RandomSource σ]

/-- A step ends the run, or takes out something that was reported. -/
theorem Reducing.step_cases {s : Session σ} (h : s.Reducing) {p : Program}
    (hin : s.scan p ≠ [] → ∃ i < (s.scan p).length,
      (RandomSource.nextInt s.source (s.scan p).length).1 = .ok i) :
    (s.scan p = [] ∧ s.step p = ⟨.ok none, p, s⟩) ∨
      ∃ x ∈ p.extractions s.settings.mergedPrefix, ∃ changed source,
        x.apply p s.settings.mergedPrefix = .ok changed ∧
          s.step p = ⟨.ok (some (Opportunity.extraction x).id), changed, { s with source }⟩ := by
  have hreported : ∀ o ∈ s.scan p, ∃ x ∈ p.extractions s.settings.mergedPrefix,
      o = .extraction x := by
    intro o ho
    rw [h.scan_eq, List.mem_map] at ho
    obtain ⟨x, hx, rfl⟩ := ho
    exact ⟨x, hx, rfl⟩
  have hstep := s.step_stepped p
  generalize s.step p = out at hstep
  cases hstep with
  | done hnone => exact Or.inl ⟨hnone, rfl⟩
  | unanswered b source hne hnext =>
    obtain ⟨i, -, hi⟩ := hin hne
    rw [hnext] at hi
    cases hi
  | outOfRange i source hne hle hnext =>
    obtain ⟨j, hj, hi⟩ := hin hne
    rw [hnext] at hi
    cases hi
    exact absurd hj (Nat.not_lt.2 hle)
  | refused o b source after ho happly =>
    obtain ⟨x, hx, rfl⟩ := hreported o ho
    obtain ⟨p', hp'⟩ := Extraction.exists_applyBy hx
    simp only [Opportunity.apply, Prod.mk.injEq] at happly
    rw [Extraction.apply, hp'] at happly
    cases happly.1
  | applied o changed source after ho happly =>
    obtain ⟨x, hx, rfl⟩ := hreported o ho
    simp only [Opportunity.apply, Prod.mk.injEq] at happly
    exact Or.inr ⟨x, hx, changed, after, happly.1, rfl⟩

/-- With more steps than bytes, the run ends where nothing is found. What it
has applied was reported, one after the other. -/
theorem Reducing.run_exhausted {s : Session σ} (h : s.Reducing) {p : Program} {steps : Nat}
    (hsteps : p.identifierBytes < steps) (hin : s.InBounds steps p) :
    (∃ applied, (s.run steps p).answer = .ok ⟨applied, true⟩ ∧
        p.Reduces s.settings.mergedPrefix applied.length (s.run steps p).program) ∧
      (s.run steps p).session.scan (s.run steps p).program = [] := by
  induction steps generalizing s p with
  | zero => exact absurd hsteps (Nat.not_lt_zero _)
  | succ steps ih =>
    obtain ⟨hnow, hlater⟩ := hin
    rcases h.step_cases hnow with ⟨hnone, hstep⟩ | ⟨x, hx, changed, source, happly, hstep⟩
    · simp only [run, hstep]
      exact ⟨⟨[], rfl, .none p⟩, hnone⟩
    · rw [hstep] at hlater
      have hlt := Extraction.identifierBytes_lt hx happly
      have hfewer : changed.identifierBytes < steps := by omega
      obtain ⟨⟨applied, hanswer, hreduces⟩, hscan⟩ :=
        ih (s := { s with source }) h hfewer hlater
      simp only [run, hstep]
      refine ⟨⟨(Opportunity.extraction x).id :: applied, ?_, .step x hx happly hreduces⟩, hscan⟩
      rw [hanswer]
      rfl

end ShaderMorph.Session
