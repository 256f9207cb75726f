-- What a step of a session does, and what a whole run keeps. A step changes
-- the program only by applying what a scan of it found, so whatever each
-- opportunity keeps when it is applied, a run of any length keeps, be its
-- random source as it may.
import ShaderMorph.Session.Run

namespace ShaderMorph.Session

variable {σ : Type} [RandomSource σ]

/-! ## One step -/

/-- The ways a step can go. -/
inductive Stepped (s : Session σ) (p : Program) : Outcome σ (Option OpportunityId) → Prop
  /-- Nothing was found. -/
  | done : s.scan p = [] → Stepped s p ⟨.ok none, p, s⟩
  /-- The source had no answer. -/
  | unanswered (b : Breach) (source : σ) : s.scan p ≠ [] →
    RandomSource.nextInt s.source (s.scan p).length = (.error b, source) →
      Stepped s p ⟨.error b, p, { s with source }⟩
  /-- The source answered a number that is too large. -/
  | outOfRange (i : Nat) (source : σ) : s.scan p ≠ [] → (s.scan p).length ≤ i →
    RandomSource.nextInt s.source (s.scan p).length = (.ok i, source) →
      Stepped s p ⟨.error (.choiceOutOfRange (s.scan p).length i), p, { s with source }⟩
  /-- What the source chose cannot be applied. -/
  | refused (o : Opportunity) (b : Breach) (source after : σ) : o ∈ s.scan p →
    o.apply s.settings p source = (.error b, after) →
      Stepped s p ⟨.error b, p, { s with source := after }⟩
  /-- What the source chose was applied. -/
  | applied (o : Opportunity) (changed : Program) (source after : σ) : o ∈ s.scan p →
    o.apply s.settings p source = (.ok changed, after) →
      Stepped s p ⟨.ok (some o.id), changed, { s with source := after }⟩

theorem step_stepped (s : Session σ) (p : Program) : s.Stepped p (s.step p) := by
  unfold step
  by_cases hfound : (s.scan p).isEmpty = true
  · simp only [hfound, if_true]
    exact .done (List.isEmpty_iff.1 hfound)
  · have hne : s.scan p ≠ [] := fun h => hfound (List.isEmpty_iff.2 h)
    simp only [hfound, if_false, Bool.false_eq_true]
    rcases hnext : RandomSource.nextInt s.source (s.scan p).length with ⟨choice, source⟩
    cases choice with
    | error b => exact .unanswered b source hne hnext
    | ok i =>
      dsimp only
      cases ho : (s.scan p)[i]? with
      | none => exact .outOfRange i source hne (List.getElem?_eq_none_iff.1 ho) hnext
      | some o =>
        have hmem : o ∈ s.scan p := List.mem_of_getElem? ho
        dsimp only
        rcases happly : o.apply s.settings p source with ⟨result, after⟩
        cases result with
        | error b => exact .refused o b source after hmem happly
        | ok changed => exact .applied o changed source after hmem happly

/-! ## Runs -/

/-- What every applied opportunity keeps, a run keeps. -/
theorem run_keeps {I : Program → Prop} {s : Session σ}
    (h : ∀ (q changed : Program) (o : Opportunity) (source after : σ), I q → o ∈ s.scan q →
      o.apply s.settings q source = (.ok changed, after) → I changed)
    {p : Program} (hp : I p) (steps : Nat) : I (s.run steps p).program := by
  induction steps generalizing s p with
  | zero => exact hp
  | succ steps ih =>
    unfold run
    have hstep := s.step_stepped p
    generalize s.step p = first at hstep
    cases hstep with
    | done _ => exact hp
    | unanswered b source _ _ => exact hp
    | outOfRange i source _ _ _ => exact hp
    | refused o b source after _ _ => exact hp
    | applied o changed source after ho happly =>
      exact ih (s := { s with source := after }) h (h p changed o source after hp ho happly)

/-! ## Choices within their bounds -/

/-- In the first `steps` steps of a run, the source answers each question with
a number below its bound. -/
def InBounds : (steps : Nat) → Session σ → Program → Prop
  | 0, _, _ => True
  | steps + 1, s, p =>
    (s.scan p ≠ [] → ∃ i < (s.scan p).length,
      (RandomSource.nextInt s.source (s.scan p).length).1 = .ok i) ∧
        InBounds steps (s.step p).session (s.step p).program

/-- A source that always answers within the bound does so in every run. -/
theorem inBounds_of_source (h : ∀ (source : σ) (bound : Nat), 0 < bound →
    ∃ i < bound, (RandomSource.nextInt source bound).1 = .ok i) (steps : Nat) (s : Session σ)
    (p : Program) : InBounds steps s p := by
  induction steps generalizing s p with
  | zero => trivial
  | succ steps ih => exact ⟨fun hne => h _ _ (List.length_pos_iff.2 hne), ih _ _⟩

/-- The source of a seed does. -/
theorem inBounds_seeded (steps : Nat) (s : Session SeededSource) (p : Program) :
    InBounds steps s p := by
  refine inBounds_of_source (fun source bound hb => ?_) steps s p
  refine ⟨(SeededSource.take source.seed bound SeededSource.period source.taken).1,
    SeededSource.take_lt hb _ _, ?_⟩
  have hne : ¬bound = 0 := Nat.ne_of_gt hb
  simp only [RandomSource.nextInt, hne, if_false]

end ShaderMorph.Session
