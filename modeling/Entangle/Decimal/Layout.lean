import Entangle.Decimal.Shortest

/-!
# Written numbers

The text of a double: in plain notation or with an exponent, with the fewest digits that read back, a
number of significant digits, or a number of places. A `Layout` says for which powers of ten the
exponent is written and how.
-/

namespace Entangle

namespace Decimal

/-- Which leading powers of ten are written in plain notation, and the least number of digits of a
written exponent. -/
structure Layout where
  plainFrom : Int
  plainBelow : Int
  exponentDigits : Nat

/-- The layout of messages and parameters. -/
def Layout.general : Layout := ⟨-4, 6, 2⟩

/-- The layout with a given number of significant digits. -/
def Layout.precision (count : Nat) : Layout := ⟨-4, count, 2⟩

/-- The layout of numbers in a structured report. -/
def Layout.report : Layout := ⟨-6, 21, 1⟩

def padLeft (width : Nat) (c : Char) (text : List Char) : List Char :=
  List.replicate (width - text.length) c ++ text

/-- The digits of a number with the point where the exponent puts it. -/
def plainText (d : Decimal) : List Char :=
  let digits := digitText d.digits
  if 0 ≤ d.exponent then digits ++ List.replicate d.exponent.toNat '0'
  else
    let places := (-d.exponent).toNat
    let padded := padLeft (places + 1) '0' digits
    let cut := padded.length - places
    padded.take cut ++ '.' :: padded.drop cut

def exponentText (layout : Layout) (d : Decimal) : List Char :=
  let power := d.leading
  let sign := if power < 0 then '-' else '+'
  let body := match digitText d.digits with
    | [] => []
    | [first] => [first]
    | first :: rest => first :: '.' :: rest
  body ++ 'e' :: sign :: padLeft layout.exponentDigits '0' (digitText power.natAbs)

def magnitudeText (layout : Layout) (d : Decimal) : List Char :=
  if d.digits = 0 then ['0']
  else if layout.plainFrom ≤ d.leading ∧ d.leading < layout.plainBelow then plainText d
  else exponentText layout d

/-- The text of a double whose magnitude is written by `write` when it is finite. -/
def textWith (plus : Bool) (write : Binary64.Parts → List Char) (x : Float) : String :=
  if x.isNaN then (if plus then "+NaN" else "NaN")
  else
    let negative := Binary64.signBit x
    let sign := if negative then ['-'] else if plus then ['+'] else []
    if x.isInf then (if negative then "-Inf" else "+Inf")
    else String.ofList (sign ++ write (Binary64.parts x))

def shortestOf (p : Binary64.Parts) : Decimal := if p.significand = 0 then zero else shortest p

def significantOf (count : Nat) (p : Binary64.Parts) : Decimal :=
  if p.significand = 0 then zero else significant p count

/-- The shortest text that reads back. -/
def general (x : Float) : String :=
  textWith false (fun p => magnitudeText .general (shortestOf p)) x

/-- The text with at most `count` significant digits, last zeros dropped. -/
def precise (count : Nat) (x : Float) : String :=
  textWith false (fun p => magnitudeText (.precision count) (significantOf count p)) x

/-- The text of `precise` with a sign always written. -/
def preciseSigned (count : Nat) (x : Float) : String :=
  textWith true (fun p => magnitudeText (.precision count) (significantOf count p)) x

/-- The text with exactly `places` digits after the point. -/
def places (count : Nat) (x : Float) : String :=
  textWith false (fun p =>
    plainText ⟨(Ratio.ofBinary p.significand p.exponent).roundAt (-(count : Int)), -(count : Int)⟩) x

/-- The shortest text in a structured report. -/
def report (x : Float) : String :=
  textWith false (fun p => magnitudeText .report (shortestOf p)) x

end Decimal

end Entangle
