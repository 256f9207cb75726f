-- The ChaCha stream of random words with twelve rounds. A key of eight
-- words and a block number give a block of sixteen words.

namespace ShaderMorph.ChaCha

abbrev Block := Vector UInt32 16

def rotateLeft (x n : UInt32) : UInt32 := (x <<< n) ||| (x >>> (32 - n))

/-- Stir four words of a block. -/
def quarterRound (s : Block) (a b c d : Fin 16) : Block :=
  let s := s.set a (s[a] + s[b])
  let s := s.set d (rotateLeft (s[d] ^^^ s[a]) 16)
  let s := s.set c (s[c] + s[d])
  let s := s.set b (rotateLeft (s[b] ^^^ s[c]) 12)
  let s := s.set a (s[a] + s[b])
  let s := s.set d (rotateLeft (s[d] ^^^ s[a]) 8)
  let s := s.set c (s[c] + s[d])
  s.set b (rotateLeft (s[b] ^^^ s[c]) 7)

/-- Two rounds: the columns of the block as a square, then its diagonals. -/
def doubleRound (s : Block) : Block :=
  let s := quarterRound s 0 4 8 12
  let s := quarterRound s 1 5 9 13
  let s := quarterRound s 2 6 10 14
  let s := quarterRound s 3 7 11 15
  let s := quarterRound s 0 5 10 15
  let s := quarterRound s 1 6 11 12
  let s := quarterRound s 2 7 8 13
  quarterRound s 3 4 9 14

/-- The block before any round: four constants, the key, the block number in
two words, and two words of zero. -/
def start (key : List UInt32) (number : UInt64) : Block :=
  let constants : List UInt32 := [0x61707865, 0x3320646e, 0x79622d32, 0x6b206574]
  let words := constants ++ key ++ [number.toUInt32, (number >>> 32).toUInt32, 0, 0]
  Vector.ofFn fun i => words.getD i 0

/-- The block with this number. -/
def block (key : List UInt32) (number : UInt64) : Block :=
  let first := start key number
  Vector.zipWith (· + ·) (Nat.repeat doubleRound 6 first) first

/-- The 64-bit value with this number: eight values to a block, each of two
words, the lower one first. -/
def value (key : List UInt32) (number : Nat) : UInt64 :=
  let words := (block key (UInt64.ofNat (number / 8))).toList
  let low := words.getD (number % 8 * 2) 0
  let high := words.getD (number % 8 * 2 + 1) 0
  low.toUInt64 ||| (high.toUInt64 <<< 32)

end ShaderMorph.ChaCha
