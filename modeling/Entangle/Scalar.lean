/-!
# Scalars

Every numeric routine of the library is written once, over an arithmetic that is a parameter. The
doubles of the machine are one instance and run; exact real numbers are another, and give the same
routines their mathematical meaning.

Comparisons are those of the number type. A value that is not a number is unequal to itself and lies
neither below nor above anything, and an infinite value does not cancel against itself; the tests
`isNaN` and `isFinite` are read off these two facts, so over an exact arithmetic they are constant.
-/

namespace Entangle

class Scalar (α : Type) extends Add α, Sub α, Mul α, Div α, Neg α, LT α, LE α, BEq α where
  decLt : (x y : α) → Decidable (x < y)
  decLe : (x y : α) → Decidable (x ≤ y)
  ofNat : Nat → α
  /-- The decimal `m · 10^±e`, the sign of the exponent being negative when the flag is set. -/
  ofScientific : Nat → Bool → Nat → α
  ofFloat : Float → α
  /-- The multiple `num / den` of π, rounded once. -/
  piTimes : Nat → Nat → α
  abs : α → α
  sqrt : α → α
  sin : α → α
  cos : α → α
  /-- The angle of the point with the second argument as abscissa and the first as ordinate. -/
  atan2 : α → α → α
  hypot : α → α → α
  pow : α → α → α
  /-- The magnitude of the first argument with the sign of the second. -/
  copysign : α → α → α
  /-- The remainder of a division whose quotient is cut towards zero. -/
  fmod : α → α → α
  /-- The nearest whole number; a half goes away from zero. -/
  round : α → α

namespace Scalar

variable {α : Type} [Scalar α]

/-! A type's own operations and numerals come before those that its scalar structure carries. -/

attribute [instance (10)] toAdd toSub toMul toDiv toNeg toLT toLE toBEq

instance (priority := 10) instDecidableLt (x y : α) : Decidable (x < y) := decLt x y

instance (priority := 10) instDecidableLe (x y : α) : Decidable (x ≤ y) := decLe x y

instance (priority := 10) instOfNat (n : Nat) : OfNat α n := ⟨ofNat n⟩

instance (priority := 10) instOfScientific : OfScientific α := ⟨ofScientific⟩

def isNaN (x : α) : Bool := !(x == x)

def isFinite (x : α) : Bool := x - x == 0

def isInf (x : α) : Bool := !isNaN x && !isFinite x

/-- The quotient `1 / 0`: infinite where the arithmetic has an infinity. -/
def infinity : α := 1 / 0

def pi : α := piTimes 1 1

def halfPi : α := pi / 2

def quarterPi : α := pi / 4

def tau : α := 2 * pi

/-- `√(1/2)`, the reciprocal of `√2`. -/
def sqrtHalf : α := sqrt (1 / 2)

/-- The larger value. An infinity above every number wins even over a value that is no number, and
such a value wins over every other number. -/
def larger (x y : α) : α :=
  if isInf x && decide (0 < x) then x
  else if isInf y && decide (0 < y) then y
  else if isNaN x then x
  else if isNaN y then y
  else if y < x then x else y

/-- The smaller value, with the rules of `larger` for the infinity below every number. -/
def smaller (x y : α) : α :=
  if isInf x && decide (x < 0) then x
  else if isInf y && decide (y < 0) then y
  else if isNaN x then x
  else if isNaN y then y
  else if x < y then x else y

/-- A tolerance or threshold that an option may set. -/
def isTolerance (x : α) : Bool := isFinite x && !decide (x < 0)

/-- A number of the closed unit interval. -/
def isProbability (x : α) : Bool := decide (0 ≤ x) && decide (x ≤ 1)

/-- The representative of an angle in `[-π, π]` and the number of whole turns taken away. -/
def wrapAngle (angle : α) : α × α :=
  let turns := round (angle / tau)
  (angle - tau * turns, turns)

/-- The remainder of `x` modulo `m`, moved up by `m` when it is negative. -/
def modPositive (x m : α) : α :=
  let r := fmod x m
  if r < 0 then r + m else r

end Scalar

end Entangle
