-- Sessions. A session scans a program, lets its random source choose one
-- opportunity, applies it, and starts over, until a scan finds nothing or the
-- steps are used up. Every step scans anew, so that what it applies was found
-- in the program as it is.
import ShaderMorph.Random.Seeded
import ShaderMorph.Session.Opportunity

namespace ShaderMorph

/-- A session over random sources of type `σ`: its settings, its finders in
order, and the source to ask next. -/
structure Session (σ : Type) where
  settings : SessionSettings
  finders : List Finder
  source : σ

/-- What a run has done: the opportunities it applied, in order, and whether
it ended because a scan found nothing. -/
structure RunSummary where
  applied : List OpportunityId
  exhausted : Bool
deriving DecidableEq, Repr

namespace Session

/-! ## Starting -/

/-- A session without finders. The settings are checked. -/
def start {σ : Type} (settings : SessionSettings) (source : σ) :
    Except SettingsError (Session σ) := do
  settings.check
  return ⟨settings, [], source⟩

/-- The source that the seed of the settings gives. -/
def seededSource (settings : SessionSettings) : SeededSource := .ofSeed settings.seed

variable {σ : Type}

/-- The session with one more finder, which comes after the others. -/
def withFinder (s : Session σ) (f : Finder) : Session σ :=
  { s with finders := s.finders ++ [f] }

/-- A session that wraps expressions in identities. -/
def fuzzing (settings : SessionSettings) : Except SettingsError (Session SeededSource) := do
  let s ← start settings (seededSource settings)
  return s.withFinder (.mutation settings.identities)

/-- A session that takes merged vectors apart. -/
def reduction (settings : SessionSettings) : Except SettingsError (Session SeededSource) := do
  let s ← start settings (seededSource settings)
  return s.withFinder (.extraction settings.mergedPrefix)

/-! ## Running -/

/-- Every opportunity that the finders see, finder by finder. -/
def scan (s : Session σ) (p : Program) : List Opportunity := s.finders.flatMap (·.find p)

/-- What a step answers, and the program and the session after it. When the
step was out of order, the program is the one before it. -/
structure Outcome (σ α : Type) where
  answer : Except Breach α
  program : Program
  session : Session σ

variable [RandomSource σ]

/-- Apply one opportunity that the source chooses, and answer its identity;
nothing when there is none. -/
def step (s : Session σ) (p : Program) : Outcome σ (Option OpportunityId) :=
  let found := s.scan p
  if found.isEmpty then ⟨.ok none, p, s⟩
  else
    let (choice, source) := RandomSource.nextInt s.source found.length
    let s := { s with source }
    match choice with
    | .error b => ⟨.error b, p, s⟩
    | .ok i =>
      match found[i]? with
      | none => ⟨.error (.choiceOutOfRange found.length i), p, s⟩
      | some o =>
        let (result, source) := o.apply s.settings p s.source
        let s := { s with source }
        match result with
        | .error b => ⟨.error b, p, s⟩
        | .ok changed => ⟨.ok (some o.id), changed, s⟩

/-- Take at most `steps` steps. -/
def run : (steps : Nat) → Session σ → Program → Outcome σ RunSummary
  | 0, s, p => ⟨.ok ⟨[], false⟩, p, s⟩
  | steps + 1, s, p =>
    let first := s.step p
    match first.answer with
    | .error b => ⟨.error b, first.program, first.session⟩
    | .ok none => ⟨.ok ⟨[], true⟩, first.program, first.session⟩
    | .ok (some id) =>
      let rest := run steps first.session first.program
      { rest with
        answer := rest.answer.map fun summary => { summary with applied := id :: summary.applied } }

/-- Take steps until nothing is found, or as many as the settings allow. -/
def exhaust (s : Session σ) (p : Program) : Outcome σ RunSummary := run s.settings.maxSteps s p

omit [RandomSource σ]

/-- Take out the globals that nothing uses, but for the switch. -/
def strip (s : Session σ) (p : Program) : Program × StripReport :=
  p.strip s.settings.injectionSwitch

end Session

end ShaderMorph
