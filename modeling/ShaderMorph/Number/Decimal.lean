-- Decimal numbers as text: how whole numbers are written, and how they are
-- read back. A number without leading zeros is read exactly as it is
-- written.

namespace ShaderMorph.Decimal

/-! ## Writing -/

/-- The decimal digits of `n`, without leading zeros. -/
def digits (n : Nat) : List Char := Nat.toDigits 10 n

/-- A whole number that is not negative, in decimal digits. -/
def natural (n : Nat) : String := String.ofList (digits n)

/-- A whole number in decimal digits, with a minus sign below zero. -/
def integer : Int → String
  | .ofNat n => natural n
  | .negSucc n => "-" ++ natural (n + 1)

/-! ## Reading -/

/-- The value that digits stand for in `base`. -/
def valueIn (base : Nat) (text : List Char) : Nat := Nat.ofDigitChars base text 0

/-- A text of one or more decimal digits, leading zeros allowed. -/
def readDigits? (text : List Char) : Option Nat :=
  if text ≠ [] ∧ text.all Char.isDigit then some (valueIn 10 text) else none

/-- Whether a run of digits starts with a zero that it does not need. -/
def hasLeadingZero : List Char → Bool
  | '0' :: _ :: _ => true
  | _ => false

/-- The number that a text begins with, and the text after it. It has no
leading zeros, though a lone zero is a number, and it ends only where the
digits do. -/
def readFront? (text : List Char) : Option (Nat × List Char) :=
  let run := text.takeWhile Char.isDigit
  if run = [] ∨ hasLeadingZero run then none
  else some (valueIn 10 run, text.dropWhile Char.isDigit)

theorem valueIn_digits (n : Nat) : valueIn 10 (digits n) = n :=
  Nat.ofDigitChars_toDigits (by decide) (by decide)

end ShaderMorph.Decimal
