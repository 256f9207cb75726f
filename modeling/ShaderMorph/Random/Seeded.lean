-- The source of random choices that a seed gives. The seed is drawn out into
-- the key of a ChaCha stream, and each choice takes values from that stream
-- until one is fit to be scaled down to the bound without favouring any
-- answer.
import ShaderMorph.Random.ChaCha
import ShaderMorph.Random.Source

namespace ShaderMorph

/-- A seed, and how many values of its stream have been taken. -/
structure SeededSource where
  seed : UInt64
  taken : Nat
deriving DecidableEq, Repr

namespace SeededSource

def ofSeed (seed : UInt64) : SeededSource := ⟨seed, 0⟩

/-! ## The stream of a seed -/

def rotateRight (x n : UInt32) : UInt32 := (x >>> n) ||| (x <<< (32 - n))

/-- `count` words drawn out of a state of 64 bits. Each step moves the state
on and gives 32 bits of it, rotated by its top five bits. -/
def keyWords : (count : Nat) → (state : UInt64) → List UInt32
  | 0, _ => []
  | count + 1, state =>
    let state := state * 6364136223846793005 + 11634580027462260723
    let word := (((state >>> 18) ^^^ state) >>> 27).toUInt32
    rotateRight word (state >>> 59).toUInt32 :: keyWords count state

/-- The value of the stream with this number. -/
def streamValue (seed : UInt64) (number : Nat) : Nat :=
  (ChaCha.value (keyWords 8 seed) number).toNat

/-! ## Choices below a bound -/

/-- The largest lower half that a scaled value may have. Above it the values
do not fall on all answers alike. -/
def zone (bound : Nat) : Nat := bound * Nat.pow 2 (63 - Nat.log2 bound) - 1

/-- Take values from the stream, from the one with this number on, until one
is fit. The answer comes with the number of the next value. -/
def take (seed : UInt64) (bound : Nat) : (tries number : Nat) → Nat × Nat
  | 0, number => (0, number)
  | tries + 1, number =>
    let scaled := streamValue seed number * bound
    if scaled % Nat.pow 2 64 ≤ zone bound then (scaled / Nat.pow 2 64, number + 1)
    else take seed bound tries (number + 1)

/-- How many values the stream has before it starts over. No search needs
more of them. -/
def period : Nat := Nat.pow 2 67

theorem take_lt {seed : UInt64} {bound : Nat} (hb : 0 < bound) (tries number : Nat) :
    (take seed bound tries number).1 < bound := by
  induction tries generalizing number with
  | zero => exact hb
  | succ tries ih =>
    simp only [take]
    split
    · have hv : streamValue seed number < Nat.pow 2 64 := UInt64.toNat_lt _
      rw [Nat.div_lt_iff_lt_mul (by decide), Nat.mul_comm]
      exact Nat.mul_lt_mul_of_pos_left hv hb
    · exact ih _

end SeededSource

instance : RandomSource SeededSource where
  nextInt source bound :=
    if bound = 0 then (.error .zeroBound, source)
    else
      let (answer, taken) := SeededSource.take source.seed bound SeededSource.period source.taken
      (.ok answer, ⟨source.seed, taken⟩)

/-- A source of any of the three kinds. -/
inductive AnySource
  | zero (source : ZeroSource)
  | canned (source : CannedSource)
  | seeded (source : SeededSource)
deriving DecidableEq, Repr

instance : RandomSource AnySource where
  nextInt source bound :=
    match source with
    | .zero s =>
      let (answer, s) := RandomSource.nextInt s bound
      (answer, .zero s)
    | .canned s =>
      let (answer, s) := RandomSource.nextInt s bound
      (answer, .canned s)
    | .seeded s =>
      let (answer, s) := RandomSource.nextInt s bound
      (answer, .seeded s)

end ShaderMorph
