-- Sources of random choices. A source answers a number below a bound and
-- the source to ask next; all random choices go through one, so the same
-- source repeats the same choices.
import ShaderMorph.Breach

namespace ShaderMorph

/-- Things of type `σ` can be asked for random numbers. -/
class RandomSource (σ : Type) where
  /-- A number below `bound`, or how the question was out of order; and the
  source after it. -/
  nextInt : (source : σ) → (bound : Nat) → Except Breach Nat × σ

namespace RandomSource

variable {σ : Type} [RandomSource σ]

/-- A coin toss. -/
def nextBool (source : σ) : Except Breach Bool × σ :=
  let (answer, source) := nextInt source 2
  (answer.map (· == 1), source)

/-- One of the candidates. Where there is none, the source is not asked. -/
def choose (source : σ) (candidates : List α) : Except Breach (Option α) × σ :=
  if candidates.isEmpty then (.ok none, source)
  else
    let (answer, source) := nextInt source candidates.length
    (answer.map (candidates[·]?), source)

end RandomSource

/-! ## Fixed choices -/

/-- The source that always answers zero. -/
structure ZeroSource where
deriving DecidableEq, Repr

instance : RandomSource ZeroSource where
  nextInt source _ := (.ok 0, source)

/-- The source that answers a list of numbers, one after the other. A number
that is not below the bound is used up all the same. -/
structure CannedSource where
  values : List Nat
deriving DecidableEq, Repr

instance : RandomSource CannedSource where
  nextInt source bound :=
    match source.values with
    | [] => (.error (.cannedExhausted bound), source)
    | value :: rest =>
      (if value < bound then .ok value else .error (.cannedOutOfBound value bound), ⟨rest⟩)

end ShaderMorph
