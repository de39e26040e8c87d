import Entangle.Gate.Operation
import Entangle.Gate.Param

/-!
# Written gates

A gate is written by its name, followed by its angles in parentheses if it has any.
-/

namespace Entangle.Gate

def Standard.named (text : String) : Outcome Float Standard :=
  match Standard.ofName? text with
  | some g => .ok g
  | none => .error (Cause.within (.quoted text) .unknownGate)

structure Call where
  gate : Standard
  params : List Float

namespace Call

def isNameStart (c : Char) : Bool := 'a' ≤ c && c ≤ 'z'

def isNamePart (c : Char) : Bool := isNameStart c || c.isDigit || c == '_'

/-- The text of a name and of what stands in parentheses after it. -/
structure Shape where
  name : List Char
  arguments : List Char
deriving Repr, DecidableEq

/-- What follows a name: nothing, or one pair of parentheses; the result is what stands inside. -/
def parseArguments (cs : List Char) : Option (List Char) :=
  match cs with
  | [] => some []
  | '(' :: rest =>
      match rest.dropWhile (· != ')') with
      | ')' :: tail => if tail.all Text.isGap then some (rest.takeWhile (· != ')')) else none
      | _ => none
  | _ => none

def Shape.parse (cs : List Char) : Option Shape :=
  let body := cs.dropWhile Text.isGap
  match body with
  | c :: _ =>
      if isNameStart c then
        (parseArguments ((body.dropWhile isNamePart).dropWhile Text.isGap)).map fun arguments =>
          ⟨body.takeWhile isNamePart, arguments⟩
      else none
  | [] => none

def splitCommasFrom : List Char → List Char → List (List Char)
  | part, [] => [part.reverse]
  | part, c :: rest =>
      if c == ',' then part.reverse :: splitCommasFrom [] rest else splitCommasFrom (c :: part) rest

/-- The parts of a text between commas. -/
def splitCommas (cs : List Char) : List (List Char) := splitCommasFrom [] cs

def parseParams (arguments : List Char) : Outcome Float (List Float) :=
  if arguments.all Text.isBlank then .ok []
  else (splitCommas arguments).mapM fun part => parseParam (String.ofList part)

def parse (s : String) : Outcome Float Call :=
  match Shape.parse (Text.lower s).toList with
  | none => .error (Cause.within (.quoted s) .unknownGate)
  | some shape => do
      let gate ← Standard.named (String.ofList shape.name)
      let params ← parseParams shape.arguments
      if params.length = gate.angles then return ⟨gate, params⟩
      else .error (Operation.angleCount gate.name params.length gate.angles)

end Call

end Entangle.Gate
