import Entangle.Scalar.Binary64

/-!
# Nearest doubles

The double nearest to a quotient of natural numbers, a tie going to the even significand. Values at
or above half a unit past the largest double become infinite, and tiny ones become zero.
-/

namespace Entangle.Binary64

/-- The quotient rounded to a whole number, a half to the even neighbour. -/
def roundHalfEven (num den : Nat) : Nat :=
  let q := num / den
  let twice := 2 * (num % den)
  if twice < den then q else if den < twice then q + 1 else q + q % 2

/-- The quotient `num / den` in units of `2^exponent`, rounded to a whole number. -/
def significandAt (num den : Nat) (exponent : Int) : Nat :=
  roundHalfEven (num * Nat.pow 2 (-exponent).toNat) (den * Nat.pow 2 exponent.toNat)

/-- The binary exponent of a positive quotient: the largest `e` with `2^e ≤ num / den`. -/
def binaryExponent (num den : Nat) : Int :=
  let guess : Int := (num.log2 : Int) - den.log2
  if num * Nat.pow 2 (-guess).toNat < den * Nat.pow 2 guess.toNat then guess - 1 else guess

/-- The bits of the double `significand · 2^exponent`, for a significand of at most 53 bits. -/
def encode (significand : Nat) (exponent : Int) : UInt64 :=
  if significand < leadingBit then significand.toUInt64
  else if 971 < exponent then 0x7FF0000000000000
  else (((exponent + 1075).toNat <<< 52) + (significand - leadingBit)).toUInt64

def nearest (num den : Nat) : Float :=
  if num = 0 then 0
  else
    let exponent := max (binaryExponent num den - 52) (-1074)
    let significand := significandAt num den exponent
    Float.ofBits <|
      if significand = 2 * leadingBit then encode leadingBit (exponent + 1) else encode significand exponent

end Entangle.Binary64
