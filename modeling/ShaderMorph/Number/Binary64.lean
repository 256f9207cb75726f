-- Double-precision numbers, kept as their 64 bits: a sign, eleven bits of
-- exponent and fifty-two bits of fraction. Two of them may be the same
-- number without being the same bits (the two zeros), and a number that is
-- not a number is equal to nothing.

namespace ShaderMorph

/-- A double-precision number by its bits. -/
structure Binary64 where
  bits : UInt64
deriving DecidableEq, Repr

namespace Binary64

/-! ## The parts of a number -/

def isNegative (x : Binary64) : Bool := Nat.pow 2 63 ≤ x.bits.toNat

/-- The exponent field, as it is stored. -/
def exponent (x : Binary64) : Nat := x.bits.toNat / Nat.pow 2 52 % Nat.pow 2 11

def fraction (x : Binary64) : Nat := x.bits.toNat % Nat.pow 2 52

/-- The whole number that is scaled by a power of two: the fraction, with
the leading bit that every normal number has. -/
def significand (x : Binary64) : Nat :=
  if x.exponent = 0 then x.fraction else x.fraction + Nat.pow 2 52

/-- A finite number is its significand times `2 ^ (scale - 1075)`. -/
def scale (x : Binary64) : Nat := max x.exponent 1

def isNaN (x : Binary64) : Bool := x.exponent == 2047 && x.fraction != 0

def isInfinite (x : Binary64) : Bool := x.exponent == 2047 && x.fraction == 0

def isZero (x : Binary64) : Bool := x.exponent == 0 && x.fraction == 0

/-! ## Equality of numbers -/

/-- Equality as numbers: the two zeros are equal, and a number that is not
a number equals nothing, itself included. -/
def sameNumber (x y : Binary64) : Bool :=
  !x.isNaN && !y.isNaN && (x == y || (x.isZero && y.isZero))

theorem sameNumber_self {x : Binary64} (h : x.isNaN = false) : x.sameNumber x = true := by
  simp [sameNumber, h]

/-! ## Particular numbers -/

/-- The number that is not a number, in its usual bits. -/
def nan : Binary64 := ⟨0x7ff8000000000000⟩

/-- The double closest to zero that is equal to `n`, exact for all whole
numbers of at most 53 bits. -/
def ofNatural (n : Nat) : Binary64 :=
  if n = 0 then ⟨0⟩
  else
    let top := Nat.log2 n
    ⟨UInt64.ofNat ((top + 1023) * Nat.pow 2 52 + n * Nat.pow 2 (52 - top) % Nat.pow 2 52)⟩

/-- The double equal to a whole number of at most 53 bits. -/
def ofInteger : Int → Binary64
  | .ofNat n => ofNatural n
  | .negSucc n => ⟨(ofNatural (n + 1)).bits + 0x8000000000000000⟩

end Binary64

end ShaderMorph
