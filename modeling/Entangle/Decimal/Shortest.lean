import Entangle.Scalar.Nearest

/-!
# Shortest decimals

The decimal with the fewest digits that reads back as a given double. The reals that round to the
double form an interval, closed when its significand is even. On the grids of 1, 2, … 17 significant
digits the two neighbours of the value are tried; the first grid with a neighbour in the interval
gives the answer, and of two such neighbours the nearer is taken.
-/

namespace Entangle

/-- The number `digits · 10^exponent`. -/
structure Decimal where
  digits : Nat
  exponent : Int
deriving Repr, DecidableEq

namespace Decimal

def zero : Decimal := ⟨0, 0⟩

/-- The number with its last zeros moved into the exponent. -/
def trim (fuel : Nat) (d : Decimal) : Decimal :=
  match fuel with
  | 0 => d
  | fuel + 1 =>
      if d.digits ≠ 0 ∧ d.digits % 10 = 0 then trim fuel ⟨d.digits / 10, d.exponent + 1⟩ else d

/-- The decimal digits of a natural number, without leading zeros. -/
def digitText (n : Nat) : List Char := Nat.toDigits 10 n

/-- The power of ten of the leading digit. -/
def leading (d : Decimal) : Int := d.exponent + ((digitText d.digits).length : Int) - 1

/-- A quotient of natural numbers, kept as it is. -/
structure Ratio where
  num : Nat
  den : Nat

/-- The value of `significand · 2^exponent`. -/
def Ratio.ofBinary (significand : Nat) (exponent : Int) : Ratio :=
  ⟨significand * Nat.pow 2 exponent.toNat, Nat.pow 2 (-exponent).toNat⟩

/-- The value of `n · 10^exponent`. -/
def Ratio.ofDecimal (n : Nat) (exponent : Int) : Ratio :=
  ⟨n * Nat.pow 10 exponent.toNat, Nat.pow 10 (-exponent).toNat⟩

def Ratio.le (a b : Ratio) : Bool := decide (a.num * b.den ≤ b.num * a.den)

def Ratio.lt (a b : Ratio) : Bool := decide (a.num * b.den < b.num * a.den)

/-- The value in units of `10^exponent`, cut to a whole number. -/
def Ratio.floorAt (a : Ratio) (exponent : Int) : Nat :=
  (a.num * Nat.pow 10 (-exponent).toNat) / (a.den * Nat.pow 10 exponent.toNat)

/-- The value in units of `10^exponent`, rounded to a whole number, a half to the even neighbour. -/
def Ratio.roundAt (a : Ratio) (exponent : Int) : Nat :=
  Binary64.roundHalfEven (a.num * Nat.pow 10 (-exponent).toNat) (a.den * Nat.pow 10 exponent.toNat)

/-- The power of ten of the leading digit of a positive value, from an estimate by its binary
exponent that is at most one off. -/
def Ratio.leading (a : Ratio) : Int :=
  let binary : Int := (a.num.log2 : Int) - a.den.log2
  let guess := (binary * 30103).fdiv 100000
  if Ratio.le (.ofDecimal 1 (guess + 1)) a then guess + 1
  else if Ratio.le (.ofDecimal 1 guess) a then guess
  else guess - 1

/-- The reals that round to a double. -/
structure Interval where
  low : Ratio
  value : Ratio
  high : Ratio
  closed : Bool

/-- Half a unit on both sides, a quarter below the least significand of a binade. -/
def Interval.ofParts (p : Binary64.Parts) : Interval where
  low :=
    if p.significand = Binary64.leadingBit ∧ -1074 < p.exponent then
      .ofBinary (4 * p.significand - 1) (p.exponent - 2)
    else .ofBinary (2 * p.significand - 1) (p.exponent - 1)
  value := .ofBinary p.significand p.exponent
  high := .ofBinary (2 * p.significand + 1) (p.exponent - 1)
  closed := p.significand % 2 = 0

def Interval.contains (s : Interval) (a : Ratio) : Bool :=
  if s.closed then s.low.le a && a.le s.high else s.low.lt a && a.lt s.high

/-- The grid point next to the value that lies in the interval, the nearer of two. -/
def Interval.onGrid (s : Interval) (unit : Int) : Option Decimal :=
  let below := s.value.floorAt unit
  let down := s.contains (.ofDecimal below unit)
  let up := s.contains (.ofDecimal (below + 1) unit)
  if down && up then some ⟨s.value.roundAt unit, unit⟩
  else if down then some ⟨below, unit⟩
  else if up then some ⟨below + 1, unit⟩
  else none

/-- The decimal with the fewest digits in the interval around a positive double. Seventeen digits
always suffice. -/
def shortest (p : Binary64.Parts) : Decimal :=
  let s := Interval.ofParts p
  let top := s.value.leading
  let found := (List.range 17).findSome? fun (k : Nat) => s.onGrid (top - k)
  trim 20 (found.getD ⟨s.value.roundAt (top - 16), top - 16⟩)

/-- The value of a double rounded to a number of significant digits. -/
def significant (p : Binary64.Parts) (count : Nat) : Decimal :=
  let value := Ratio.ofBinary p.significand p.exponent
  let unit := value.leading - count + 1
  trim (count + 1) ⟨value.roundAt unit, unit⟩

end Decimal

end Entangle
