import Entangle.Matrix.Dense
import Entangle.Cx.Numeral
import Entangle.Decimal.Layout
import Entangle.Text.Blank

/-!
# Written matrices

A matrix as text: one row a line, entries apart by blanks or commas. Lines that are empty or begin
with a number sign are passed over. An entry is a complex numeral whose imaginary unit is `i` or `j`.
-/

namespace Entangle

/-- The complex number that a text denotes, blanks at its ends aside. -/
def Cx.parse (s : String) : Outcome Float (Cx Float) :=
  let trimmed := Text.trimChars s.toList
  let text := if trimmed.getLast? == some 'j' then trimmed.dropLast ++ ['i'] else trimmed
  Outcome.step "ParseComplex" <|
    match Numeral.readComplex text with
    | .error refusal => .error (.numeral .complex (String.ofList text) refusal)
    | .ok z => if z.isFinite then .ok z else .error (.plain .nonFiniteEntry)

/-- A complex number with six significant digits; a part that is zero is left out. -/
def Cx.text (z : Cx Float) : String :=
  if z.im == 0 then Decimal.precise 6 z.re
  else if z.re == 0 then Decimal.precise 6 z.im ++ "i"
  else Decimal.precise 6 z.re ++ Decimal.preciseSigned 6 z.im ++ "i"

namespace Dense

/-- The bytes of a line that a reader no longer takes. -/
def lineLimit : Nat := 65536

def splitLinesFrom : List Char → List Char → List (List Char)
  | line, [] => if line.isEmpty then [] else [line.reverse]
  | line, '\n' :: rest => line.reverse :: splitLinesFrom [] rest
  | line, c :: rest => splitLinesFrom (c :: line) rest

/-- The lines of a text; a last line without a line end counts unless it is empty. -/
def splitLines (text : List Char) : List (List Char) := splitLinesFrom [] text

/-- A line without the carriage return before its end. -/
def dropReturn (line : List Char) : List Char :=
  if line.getLast? == some '\r' then line.dropLast else line

def isSeparator (c : Char) : Bool := c == ',' || c == ' ' || c == '\t'

def byteLength (line : List Char) : Nat := line.foldl (fun bytes c => bytes + c.utf8Size) 0

def fieldsFrom : List Char → List Char → List (List Char)
  | field, [] => if field.isEmpty then [] else [field.reverse]
  | field, c :: rest =>
      if isSeparator c then
        if field.isEmpty then fieldsFrom [] rest else field.reverse :: fieldsFrom [] rest
      else fieldsFrom (c :: field) rest

/-- The longest runs of characters that are no separators. -/
def fields (line : List Char) : List (List Char) := fieldsFrom [] line

/-- The row of a line, or nothing for a line that is passed over. -/
def parseLine (number : Nat) (line : List Char) : Outcome Float (Option (List (Cx Float))) :=
  match Text.trimChars (dropReturn line) with
  | [] => .ok none
  | '#' :: _ => .ok none
  | text =>
      (Outcome.within (.line number) ((fields text).mapM fun f => Cx.parse (String.ofList f))).map some

def parseLines : Nat → List (List Char) → Outcome Float (List (List (Cx Float)))
  | _, [] => .ok []
  | number, line :: rest =>
      if lineLimit ≤ byteLength line then .error (.plain .lineTooLong)
      else do
        let row ← parseLine number line
        let rows ← parseLines (number + 1) rest
        return row.toList ++ rows

def parse (text : String) : Outcome Float (Dense Float) := do
  ofRows (← parseLines 1 (splitLines text.toList))

/-- One line a row, between brackets. -/
def text (m : Dense Float) : Outcome Float String := do
  let rows ← m.toRows
  return String.join (rows.map fun row => "[" ++ ", ".intercalate (row.map Cx.text) ++ "]\n")

end Dense

end Entangle
