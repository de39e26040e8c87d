import Entangle.Fault
import Entangle.Decimal.Layout
import Entangle.Text.Blank
import Entangle.Text.Case

/-!
# Written angles

An angle is written as a number or as a multiple of π: an optional sign, an optional coefficient with
an optional star, the letters `pi`, and an optional divisor. Common multiples of π are written back
in that form, every other angle by its shortest decimal.
-/

namespace Entangle.Gate

/-- The parts of a multiple of π. -/
structure PiMultiple where
  negative : Bool
  coefficient : List Char
  divisor : Option (List Char)
deriving Repr, DecidableEq

namespace PiMultiple

def dropGaps (cs : List Char) : List Char := cs.dropWhile Text.isGap

/-- Digits, and one point with more digits after it. -/
def spanDecimal (cs : List Char) : List Char × List Char :=
  let whole := cs.takeWhile Char.isDigit
  match cs.dropWhile Char.isDigit with
  | '.' :: rest => (whole ++ '.' :: rest.takeWhile Char.isDigit, rest.dropWhile Char.isDigit)
  | rest => (whole, rest)

def dropStar : List Char → List Char
  | '*' :: rest => rest
  | cs => cs

/-- What follows the letters `pi`: nothing, or a slash and a number that begins with a digit. -/
def parseDivisor (cs : List Char) : Option (Option (List Char)) :=
  match cs with
  | [] => some none
  | _ =>
      match dropGaps cs with
      | '/' :: rest =>
          let (divisor, tail) := spanDecimal (dropGaps rest)
          match divisor, tail with
          | c :: _, [] => if c.isDigit then some (some divisor) else none
          | _, _ => none
      | _ => none

def parse (cs : List Char) : Option PiMultiple :=
  let (negative, body) := match cs with
    | '-' :: rest => (true, rest)
    | _ => (false, cs)
  let (coefficient, rest) := spanDecimal body
  match dropGaps (dropStar (dropGaps rest)) with
  | 'p' :: 'i' :: tail => (parseDivisor tail).map fun divisor => ⟨negative, coefficient, divisor⟩
  | _ => none

/-- The value of a coefficient or divisor, one where it is not written. -/
def factor (cs : List Char) : Option Float :=
  if cs.isEmpty then some 1 else (Numeral.read cs).toOption

def value? (m : PiMultiple) : Option Float := do
  let coefficient ← factor m.coefficient
  let size ← match m.divisor with
    | none => some (coefficient * Scalar.pi)
    | some text => do
        let divisor ← factor text
        if divisor == 0 then none else some (coefficient * Scalar.pi / divisor)
  return if m.negative then -size else size

end PiMultiple

def parseParam (s : String) : Outcome Float Float :=
  let text := Text.trim s
  if text.isEmpty then .error (Cause.within .emptyExpression .badParameter)
  else
    match Numeral.read text.toList with
    | .ok x => .ok x
    | .error _ =>
        match (PiMultiple.parse (Text.lower text).toList).bind PiMultiple.value? with
        | some x => .ok x
        | none => .error (Cause.within (.quoted text) .badParameter)

/-- The multiples of π with a text of their own. -/
def piForms : List (Float × String) :=
  [(Scalar.piTimes 2 1, "2*pi"), (Scalar.piTimes 1 1, "pi"), (Scalar.piTimes 1 2, "pi/2"),
    (Scalar.piTimes 1 3, "pi/3"), (Scalar.piTimes 1 4, "pi/4"), (Scalar.piTimes 1 6, "pi/6"),
    (Scalar.piTimes 1 8, "pi/8"), (Scalar.piTimes 3 4, "3*pi/4"), (Scalar.piTimes 3 2, "3*pi/2"),
    (Scalar.piTimes 2 3, "2*pi/3")]

/-- The text of the first form within `10^-10` of the angle or its negation. -/
def piText? (x : Float) : Option String :=
  piForms.findSome? fun (value, text) =>
    if (x - value).abs < 1e-10 then some text
    else if (x + value).abs < 1e-10 then some ("-" ++ text)
    else none

def formatParam (x : Float) : String := (piText? x).getD (Decimal.general x)

def formatParams (xs : List Float) : String := "[" ++ ", ".intercalate (xs.map formatParam) ++ "]"

end Entangle.Gate
