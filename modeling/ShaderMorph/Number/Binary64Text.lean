-- Double-precision numbers as decimal text. A whole number is written with
-- all its digits and one zero after the point. Any other number gets the
-- fewest decimal places that read back as it, and of two such decimals the
-- nearer one. There is never an exponent.
import ShaderMorph.Number.Binary64
import ShaderMorph.Number.Decimal

namespace ShaderMorph.Binary64

/-! ## Numbers with a fraction

Such a number is `m / 2 ^ s` with `s` above zero. The decimals that read
back as it lie around it, at most half the way to its neighbours; an even
`m` owns the ends of that range as well. Below a power of two the neighbour
is twice as near. -/

/-- Whether a distance of `far / (2 ^ s * 10 ^ places)` from the number stays
in its range. `share` is 2 where half a unit is allowed, and 4 where only a
quarter is. -/
def inReach (m share places far : Nat) : Bool :=
  if m % 2 = 0 then share * far ≤ Nat.pow 10 places else share * far < Nat.pow 10 places

/-- The decimal with `places` places that reads back as `m / 2 ^ s`, as a
count of units of the last place; nothing when there is none. -/
def decimalAt? (m s places : Nat) : Option Nat :=
  let scaled := m * Nat.pow 10 places
  let below := scaled / Nat.pow 2 s
  let under := scaled % Nat.pow 2 s
  let above := Nat.pow 2 s - under
  let downShare := if m = Nat.pow 2 52 then 4 else 2
  match inReach m downShare places under, inReach m 2 places above with
  | true, true => some (if 2 * under < Nat.pow 2 s then below else below + 1)
  | true, false => some below
  | false, true => some (below + 1)
  | false, false => none

/-- The fewest places, from `places` on, with a decimal that reads back as
`m / 2 ^ s`, and that decimal. With `s` places the decimal is exact, so
`s` tries are enough. -/
def fewestPlaces (m s : Nat) : (tries places : Nat) → Nat × Nat
  | 0, places => (places, m * Nat.pow 10 places / Nat.pow 2 s)
  | tries + 1, places =>
    match decimalAt? m s places with
    | some value => (places, value)
    | none => fewestPlaces m s tries (places + 1)

/-- A count of units of the last of `places` places, with its point. -/
def pointed (places value : Nat) : String :=
  let after := Decimal.digits (value % Nat.pow 10 places)
  Decimal.natural (value / Nat.pow 10 places) ++ "." ++
    String.ofList (List.replicate (places - after.length) '0' ++ after)

/-! ## All numbers -/

/-- The text of a finite number without its sign. -/
def magnitudeText (x : Binary64) : String :=
  let m := x.significand
  if 1075 ≤ x.scale then Decimal.natural (m * Nat.pow 2 (x.scale - 1075)) ++ ".0"
  else
    let s := 1075 - x.scale
    if m % Nat.pow 2 s = 0 then Decimal.natural (m / Nat.pow 2 s) ++ ".0"
    else
      let (places, value) := fewestPlaces m s s 1
      pointed places value

/-- The decimal text of a number; a negative zero keeps its sign. -/
def text (x : Binary64) : String :=
  if x.isNaN then "NaN"
  else
    (if x.isNegative then "-" else "") ++
      (if x.isInfinite then "inf" else x.magnitudeText)

end ShaderMorph.Binary64
